import PartPatch.Patch.Operation
import PartPatch.Toml.Reader
import PartPatch.Toml.Record

/-!
# Patch documents

What a patch file says, before it is known whether each operation has the fields that its kind
requires.
-/

namespace PartPatch.Patch

set_option autoImplicit false

open Toml (Value RecordShape)

structure OperationDefinition where
  kind : OperationKind
  targetRef : Option String
  anchorRef : Option String
  fragmentRef : Option String
  partRef : Option String
  attr : Option String
  value : Option String
  placement : Option Placement
  optional : Bool
deriving DecidableEq, Repr

structure Document where
  metadata : PatchMetadata
  operations : List OperationDefinition
deriving DecidableEq, Repr

/-- A name given as a text, or as the only key of a table whose value is empty. -/
def readName? : Value → Option String
  | .string s => some s
  | .table [(name, .array [])] => some name
  | .table [(name, .table [])] => some name
  | _ => none

def operationKinds : List OperationKind :=
  [.set, .insert, .remove, .ensurePath, .ensurePart, .ensureAttr]

def readKind? (v : Value) : Option OperationKind :=
  (readName? v).bind fun name => operationKinds.find? fun kind => kind.text = name

def placements : List Placement :=
  [.before, .after, .prepend, .append]

def readPlacement? (v : Value) : Option Placement :=
  (readName? v).bind fun name => placements.find? fun placement => placement.text = name

def metadataShape : RecordShape :=
  ⟨[["name"], ["description"], ["registry_version", "registryVersion"]], true⟩

def readMetadata? (v : Value) : Option PatchMetadata := do
  let fields ← metadataShape.fields? v
  return {
    name := ← fields.withDefault? "name" "" Value.string?
    description := ← fields.optional? "description" Value.string?
    registryVersion := ← fields.optional? "registry_version" Value.string? }

def operationShape : RecordShape :=
  ⟨[["kind"], ["target_ref", "targetRef"], ["anchor_ref", "anchorRef"],
    ["fragment_ref", "fragmentRef"], ["part_ref", "partRef"], ["attr"], ["value"], ["placement"],
    ["optional"]], true⟩

def readOperation? (v : Value) : Option OperationDefinition := do
  let fields ← operationShape.fields? v
  return {
    kind := ← fields.required? "kind" readKind?
    targetRef := ← fields.optional? "target_ref" Value.string?
    anchorRef := ← fields.optional? "anchor_ref" Value.string?
    fragmentRef := ← fields.optional? "fragment_ref" Value.string?
    partRef := ← fields.optional? "part_ref" Value.string?
    attr := ← fields.optional? "attr" Value.string?
    value := ← fields.optional? "value" Value.string?
    placement := ← fields.optional? "placement" readPlacement?
    optional := ← fields.withDefault? "optional" false Value.boolean? }

def documentShape : RecordShape :=
  ⟨[["meta"], ["operations"]], true⟩

def ofEntries? (entries : List (String × Value)) : Option Document := do
  let fields ← documentShape.tableFields? (.table entries)
  return {
    metadata := ← fields.withDefault? "meta" ⟨"", none, none⟩ readMetadata?
    operations := ← fields.withDefault? "operations" [] (Value.listOf? readOperation?) }

/-- The document in a TOML text, if it is one. -/
def Document.read? (source : String) : Option Document :=
  (Toml.read? source).bind ofEntries?

end PartPatch.Patch
