import PartPatch.Entries
import PartPatch.Identifier.Space

/-!
# Giving out identifiers

Each namespace has a counter. It starts at the greatest number found in the tree when the namespace
is first used, and only grows.
-/

namespace PartPatch

set_option autoImplicit false

/-- The last number given out in each namespace used so far. -/
structure Allocator where
  counters : Entries Nat
deriving DecidableEq

namespace Allocator

/-- No further number is left in a namespace. -/
structure Exhausted where
  space : String
  max : Nat
deriving DecidableEq, Repr

def Exhausted.message (e : Exhausted) : String :=
  "identifier namespace '" ++ e.space ++ "' exhausted (max " ++ toString e.max ++ ")"

def empty : Allocator := ⟨.empty⟩

def current? (a : Allocator) (space : String) : Option Nat :=
  a.counters.find? space

/-- The number that precedes the next one to be given out. -/
def previous (a : Allocator) (space : IdentifierSpace) (t : Tree) : Nat :=
  match a.current? space.name with
  | some n => n
  | none => space.greatestIn t

/-- Gives out the next identifier of the namespace. -/
def allocate (a : Allocator) (space : IdentifierSpace) (t : Tree) :
    Except Exhausted (String × Allocator) :=
  let next := a.previous space t + 1
  if next ≤ space.max ∧ next ≤ Text.maxNumber then
    .ok (space.format next, ⟨a.counters.insert space.name next⟩)
  else .error ⟨space.name, space.max⟩

end Allocator

end PartPatch
