import PartPatch.Text.Number
import PartPatch.Tree.Order

/-!
# Identifier namespaces

The values of certain attributes are identifiers: a fixed start followed by a number. Numbers fit in
64 bits.
-/

namespace PartPatch

set_option autoImplicit false

structure IdentifierSpace where
  name : String
  /-- The attributes whose values are identifiers of this namespace. -/
  attributes : List QName
  /-- What precedes the number. -/
  start : String
  /-- The greatest number that may be given out. -/
  max : Nat
deriving DecidableEq, Repr

namespace IdentifierSpace

def format (space : IdentifierSpace) (n : Nat) : String :=
  space.start ++ toString n

/-- The number of an identifier. -/
def parse? (space : IdentifierSpace) (text : String) : Option Nat :=
  (Text.after? space.start.toList text.toList).bind Text.number?

/-- Whether an attribute's value is an identifier of this namespace. -/
def covers (space : IdentifierSpace) (a : Attribute) : Bool :=
  space.attributes.any fun name => a.name.Matches name.localName name.namespaceUri

/-- The numbers of all identifiers in the attached part of the tree. -/
def numbersIn (space : IdentifierSpace) (t : Tree) : List Nat :=
  (((t.descendantElements Tree.documentId).filterMap t.element?).flatMap Element.attributes).filter
    space.covers |>.filterMap fun a => space.parse? a.value

/-- The greatest number in the attached part of the tree, or 0 if there is none. -/
def greatestIn (space : IdentifierSpace) (t : Tree) : Nat :=
  (space.numbersIn t).foldl Nat.max 0

end IdentifierSpace

end PartPatch
