import PartPatch.Patch.Document
import PartPatch.Patch.Issue
import PartPatch.Registry.Basic
import PartPatch.Symbol
import PartPatch.Version.Requirement

/-!
# Validating patches

A patch document becomes a patch if every operation has the fields that its kind requires and no
others, and refers to registry entries by their keys. A patch suits a registry if the keys are
defined there and its paths select what the operations need.
-/

namespace PartPatch

namespace Patch

set_option autoImplicit false

def fields : List Field :=
  [.targetRef, .anchorRef, .fragmentRef, .partRef, .attribute, .value, .placement]

/-- Whether operations of the kind may have the field. -/
def uses : OperationKind → Field → Bool
  | .set, field => field ∈ [.targetRef, .value]
  | .insert, field => field ∈ [.targetRef, .anchorRef, .fragmentRef, .value, .placement]
  | .remove, field => field ∈ [.targetRef]
  | .ensurePath, field => field ∈ [.targetRef, .anchorRef, .fragmentRef, .placement]
  | .ensurePart, field => field ∈ [.fragmentRef, .partRef]
  | .ensureAttr, field => field ∈ [.targetRef, .attribute, .value]

namespace OperationDefinition

/-- The text of a field that holds one. -/
def text? (d : OperationDefinition) : Field → Option String
  | .targetRef => d.targetRef
  | .anchorRef => d.anchorRef
  | .fragmentRef => d.fragmentRef
  | .partRef => d.partRef
  | .attribute => d.attr
  | .value => d.value
  | .placement => d.placement.map Placement.text

def has (d : OperationDefinition) (field : Field) : Bool :=
  (d.text? field).isSome

/-- The fields given although the kind does not use them. -/
def unusedFields (d : OperationDefinition) : List Field :=
  fields.filter fun field => d.has field && !uses d.kind field

/-- The registry key in a field, blanks around it being ignored. -/
def reference (d : OperationDefinition) (field : Field) : Except Fault String :=
  match d.text? field with
  | none => .error (.missingField field)
  | some text =>
    let key := Text.trimmed text
    if key = "" then .error (.missingField field)
    else if Symbol.isKey key then .ok key
    else .error (.rawSelector field text)

def requiredValue (d : OperationDefinition) : Except Fault String :=
  match d.value with
  | some value => .ok value
  | none => .error (.missingField .value)

def requiredPlacement (d : OperationDefinition) : Except Fault Placement :=
  match d.placement with
  | some placement => .ok placement
  | none => .error (.missingField .placement)

/-- What is to be inserted: exactly one of a fragment and a text. -/
def payload (d : OperationDefinition) : Except Fault Payload :=
  match d.fragmentRef, d.value with
  | some _, some _ => .error .twoPayloads
  | some _, none => (d.reference .fragmentRef).map .fragment
  | none, some value => .ok (.text value)
  | none, none => .error .missingPayload

/-- The operation, or the first fault that stands in its way. -/
def operation (d : OperationDefinition) : Except Fault Operation :=
  match d.kind with
  | .set => return .set (← d.reference .targetRef) (← d.requiredValue)
  | .insert => do
    let target ← d.reference .targetRef
    let anchor ← d.reference .anchorRef
    let placement ← d.requiredPlacement
    return .insert target anchor (← d.payload) placement
  | .remove => return .remove (← d.reference .targetRef)
  | .ensurePath =>
    return .ensurePath (← d.reference .targetRef) (← d.reference .anchorRef)
      (← d.reference .fragmentRef) (← d.requiredPlacement)
  | .ensurePart => return .ensurePart (← d.reference .partRef) (← d.reference .fragmentRef)
  | .ensureAttr =>
    return .ensureAttr (← d.reference .targetRef) (← d.reference .attribute) (← d.requiredValue)

end OperationDefinition

/-- The fault, if it is one. -/
def faultOf {α : Type} : Except Fault α → List Fault
  | .ok _ => []
  | .error fault => [fault]

namespace OperationDefinition

/-- The faults of the fields that the kind requires, each checked on its own. -/
def requiredFaults (d : OperationDefinition) : List Fault :=
  match d.kind with
  | .set => faultOf (d.reference .targetRef) ++ faultOf d.requiredValue
  | .insert =>
    faultOf (d.reference .targetRef) ++ faultOf (d.reference .anchorRef) ++
      faultOf d.requiredPlacement ++ faultOf d.payload
  | .remove => faultOf (d.reference .targetRef)
  | .ensurePath =>
    faultOf (d.reference .targetRef) ++ faultOf (d.reference .anchorRef) ++
      faultOf (d.reference .fragmentRef) ++ faultOf d.requiredPlacement
  | .ensurePart => faultOf (d.reference .partRef) ++ faultOf (d.reference .fragmentRef)
  | .ensureAttr =>
    faultOf (d.reference .targetRef) ++ faultOf (d.reference .attribute) ++
      faultOf d.requiredValue

def faults (d : OperationDefinition) : List Fault :=
  d.unusedFields.map .unusedField ++ d.requiredFaults

def record? (d : OperationDefinition) : Option OperationRecord :=
  d.operation.toOption.map fun operation => ⟨operation, d.optional⟩

end OperationDefinition

/-- The issue of a requirement on the registry's version that cannot be read. -/
def requirementIssues : Option String → List Issue
  | none => []
  | some text =>
    if Text.trimmed text = "" then []
    else match Version.Requirement.read (Text.trimmed text) with
      | .ok _ => []
      | .error e => [.invalidRequirement text e]

/-- The faults of operations under their numbers. -/
def operationIssues {α : Type} (kind : α → OperationKind) (faults : α → List Fault)
    (operations : List α) : List Issue :=
  operations.zipIdx.flatMap fun (operation, index) =>
    (faults operation).map (.operation index (kind operation))

def Document.issues (d : Document) : List Issue :=
  (if d.operations = [] then [.noOperations] else []) ++
    requirementIssues d.metadata.registryVersion ++
    operationIssues OperationDefinition.kind OperationDefinition.faults d.operations

/-- The patch that the document describes, if it has no issues. -/
def Document.validate (d : Document) : Except (List Issue) Patch :=
  match d.issues with
  | [] => .ok ⟨d.metadata, d.operations.filterMap OperationDefinition.record?⟩
  | issues => .error issues

/-- The path has to be defined, and where an element is needed it may not end in an attribute. -/
def pathFaults (r : Registry) (field : Field) (key : String) (needsElement : Bool) : List Fault :=
  match r.path? key with
  | none => [.unknownRef field key .paths]
  | some p =>
    if needsElement && p.path.selectsAttribute then [.attributePath field key] else []

def fragmentFaults (r : Registry) (key : String) : List Fault :=
  if (r.fragment? key).isSome then [] else [.unknownRef .fragmentRef key .fragments]

def partFaults (r : Registry) (key : String) : List Fault :=
  if (r.part? key).isSome then [] else [.unknownRef .partRef key .parts]

def attributeFaults (r : Registry) (key : String) : List Fault :=
  if (r.attribute? key).isSome then [] else [.unknownRef .attribute key .attributes]

/-- The faults that an operation has in view of a registry. -/
def registryFaults (r : Registry) : Operation → List Fault
  | .set target _ | .remove target => pathFaults r .targetRef target false
  | .insert target anchor payload _ =>
    pathFaults r .targetRef target false ++ pathFaults r .anchorRef anchor true ++
      (match payload with
        | .fragment key => fragmentFaults r key
        | .text _ => [])
  | .ensurePath target anchor fragment _ =>
    pathFaults r .targetRef target false ++ pathFaults r .anchorRef anchor true ++
      fragmentFaults r fragment
  | .ensurePart part fragment => partFaults r part ++ fragmentFaults r fragment
  | .ensureAttr target attr _ =>
    pathFaults r .targetRef target true ++ attributeFaults r attr

end Patch

/-- The issues that the patch has in view of a registry. -/
def Patch.issuesAgainst (p : Patch) (r : Registry) : List Patch.Issue :=
  Patch.operationIssues (fun record => record.operation.kind)
    (fun record => Patch.registryFaults r record.operation) p.operations

end PartPatch
