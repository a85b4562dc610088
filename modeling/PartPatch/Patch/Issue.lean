import PartPatch.Patch.Operation
import PartPatch.Version.Reader

/-!
# Issues of a patch

What is wrong with a patch as a whole, or with one of its operations.
-/

namespace PartPatch.Patch

set_option autoImplicit false

/-- The fields of an operation in a patch document, apart from its kind and `optional`. -/
inductive Field where
  | targetRef
  | anchorRef
  | fragmentRef
  | partRef
  | attribute
  | value
  | placement
deriving DecidableEq, Repr

def Field.text : Field → String
  | .targetRef => "target_ref"
  | .anchorRef => "anchor_ref"
  | .fragmentRef => "fragment_ref"
  | .partRef => "part_ref"
  | .attribute => "attr"
  | .value => "value"
  | .placement => "placement"

/-- The tables of a registry that operations refer to. -/
inductive RegistryTable where
  | paths
  | fragments
  | parts
  | attributes
deriving DecidableEq, Repr

def RegistryTable.text : RegistryTable → String
  | .paths => "paths"
  | .fragments => "fragments"
  | .parts => "parts"
  | .attributes => "attributes"

inductive Fault where
  | missingField (field : Field)
  | missingPayload
  | unusedField (field : Field)
  | twoPayloads
  | rawSelector (field : Field) (value : String)
  | unknownRef (field : Field) (key : String) (table : RegistryTable)
  | attributePath (field : Field) (key : String)
deriving DecidableEq, Repr

inductive Issue where
  | noOperations
  | invalidRequirement (value : String) (error : Version.Error)
  | operation (index : Nat) (kind : OperationKind) (fault : Fault)
deriving DecidableEq, Repr

/-- What is said about an operation of this kind after its number. -/
def Fault.message (kind : OperationKind) : Fault → String
  | .missingField field => "missing required field '" ++ field.text ++ "'"
  | .missingPayload => "missing required field 'fragment_ref' or 'value'"
  | .unusedField field =>
    "is invalid: '" ++ field.text ++ "' is not used by " ++ kind.text
  | .twoPayloads => "is invalid: use either 'fragment_ref' or 'value', not both"
  | .rawSelector field value =>
    "field '" ++ field.text ++ "' must name a registry key, found selector text '" ++ value ++ "'"
  | .unknownRef field key table =>
    "field '" ++ field.text ++ "': '" ++ key ++ "' is not defined in registry " ++ table.text
  | .attributePath field key =>
    "is invalid: '" ++ field.text ++ "' path '" ++ key ++
      "' must select elements, not attributes"

def Issue.message : Issue → String
  | .noOperations => "patch file contains no operations"
  | .invalidRequirement value error =>
    "invalid registry_version '" ++ value ++ "': " ++ error.message
  | .operation index kind fault =>
    "operation #" ++ toString index ++ " (" ++ kind.text ++ ") " ++ fault.message kind

/-- The messages of all issues, one a line. -/
def issuesText (issues : List Issue) : String :=
  "\n".intercalate (issues.map Issue.message)

end PartPatch.Patch
