import PartPatch.Json.Basic
import PartPatch.Toml.Record

/-!
# TOML values as JSON

Numbers that JSON lacks become null. A date or time becomes an object with one member.
-/

namespace PartPatch.Toml

set_option autoImplicit false

/-- A number that is not finite has no JSON form. -/
def realToJson (x : Float) : Json :=
  if x.isNaN || x.isInf then .null else .real x

mutual

def Value.toJson : Value → Json
  | .string s => .string s
  | .integer n => .integer n
  | .float x => realToJson x
  | .boolean b => .bool b
  | .datetime d => .object [(datetimeKey, .string d.text)]
  | .array items => .array (itemsToJson items)
  | .table entries => .ofMembers (membersToJson entries)

def itemsToJson : List Value → List Json
  | [] => []
  | v :: vs => v.toJson :: itemsToJson vs

def membersToJson : List (String × Value) → List (String × Json)
  | [] => []
  | (key, v) :: entries => (key, v.toJson) :: membersToJson entries

end

/-- A whole document as an object. -/
def entriesToJson (entries : List (String × Value)) : Json :=
  .ofMembers (membersToJson entries)

end PartPatch.Toml
