/-!
# Qualified names

A name has a local part, a namespace and the prefix it was written with. Two names mean the same if
local part and namespace agree; the prefix is kept for writing only.
-/

namespace PartPatch

set_option autoImplicit false

structure QName where
  qualifier : Option String
  localName : String
  namespaceUri : Option String
deriving DecidableEq, Repr

namespace QName

/-- A name with neither prefix nor namespace. -/
def plain (localName : String) : QName :=
  ⟨none, localName, none⟩

/-- Whether the name has this local part and namespace. -/
def Matches (q : QName) (localName : String) (namespaceUri : Option String) : Prop :=
  q.localName = localName ∧ q.namespaceUri = namespaceUri

instance (q : QName) (localName : String) (namespaceUri : Option String) :
    Decidable (q.Matches localName namespaceUri) :=
  inferInstanceAs (Decidable (_ ∧ _))

/-- The name as it is written in markup. -/
def qualified (q : QName) : String :=
  match q.qualifier with
  | some qualifier => qualifier ++ ":" ++ q.localName
  | none => q.localName

/-- The name with its namespace spelt out in braces. -/
def expanded (q : QName) : String :=
  match q.namespaceUri with
  | some uri => "\x7b" ++ uri ++ "\x7d" ++ q.localName
  | none => q.localName

theorem matches_self (q : QName) : q.Matches q.localName q.namespaceUri :=
  ⟨rfl, rfl⟩

end QName

end PartPatch
