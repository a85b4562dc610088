import PartPatch.Json.Basic
import PartPatch.Json.Printer
import PartPatch.Token.Piece

/-!
# Token tables

A table gives names to texts. It is made from a nested value: names of objects inside one another
are joined by full stops, strings stand for themselves, other values for their compact text, and
nulls are left out. Later entries of one name overwrite earlier ones.
-/

namespace PartPatch.Token

set_option autoImplicit false

/-- The entries of a nested value in its order, under a dotted name. -/
def joinName (outer name : String) : String :=
  if outer = "" then name else outer ++ "." ++ name

mutual

def entries (name : String) : Json → List (String × String)
  | .null => []
  | .string text => [(name, text)]
  | .object members => memberEntries name members
  | value => [(name, value.text)]

def memberEntries (outer : String) : List (String × Json) → List (String × String)
  | [] => []
  | (key, value) :: members => entries (joinName outer key) value ++ memberEntries outer members

end

/-- A finite table of tokens; each name has one entry. -/
structure Table where
  entries : List (String × String)
deriving DecidableEq, Repr

namespace Table

def empty : Table := ⟨[]⟩

def insert (t : Table) (name value : String) : Table :=
  ⟨t.entries.filter (fun e => e.1 ≠ name) ++ [(name, value)]⟩

def ofEntries (entries : List (String × String)) : Table :=
  entries.foldl (fun t (name, value) => t.insert name value) empty

def ofJson (value : Json) : Table :=
  ofEntries (Token.entries "" value)

def size (t : Table) : Nat :=
  t.entries.length

def isEmpty (t : Table) : Bool :=
  t.entries.isEmpty

def resolve (t : Table) : Resolver :=
  fun name => t.entries.lookup name

end Table

end PartPatch.Token
