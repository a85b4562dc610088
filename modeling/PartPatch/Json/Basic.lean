/-!
# JSON values

Numbers are integers or binary64 numbers, told apart by how they were written. The members of an
object are kept in ascending order of their keys, each key once.
-/

namespace PartPatch

set_option autoImplicit false

inductive Json where
  | null
  | bool (b : Bool)
  | integer (n : Int)
  | real (x : Float)
  | string (s : String)
  | array (items : List Json)
  | object (members : List (String × Json))

namespace Json

/-- Puts a member at its place in an ordered list of members; an equal key is overwritten. -/
def insertMember (key : String) (value : Json) : List (String × Json) → List (String × Json)
  | [] => [(key, value)]
  | (k, v) :: rest =>
    if key < k then (key, value) :: (k, v) :: rest
    else if key = k then (key, value) :: rest
    else (k, v) :: insertMember key value rest

/-- The object with these members, of which the last of equal keys counts. -/
def ofMembers (members : List (String × Json)) : Json :=
  .object (members.foldl (fun acc (k, v) => insertMember k v acc) [])

def member? (key : String) : Json → Option Json
  | .object members => members.lookup key
  | _ => none

end Json

end PartPatch
