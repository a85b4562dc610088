/-!
# Edit scripts

A script turns one list into another by keeping, deleting and inserting items. It is shown as a list
of changes in which, between two kept items, what is deleted comes before what is inserted.
-/

namespace PartPatch.Diff

set_option autoImplicit false

/-- A step of a script. Insertions come in runs. -/
inductive Edit (α : Type) where
  | keep (item : α)
  | delete (item : α)
  | insert (items : List α)
deriving DecidableEq, Repr

variable {α : Type}

/-- What the step takes from the old list. -/
def Edit.old : Edit α → List α
  | .keep item | .delete item => [item]
  | .insert _ => []

/-- What the step gives to the new list. -/
def Edit.new : Edit α → List α
  | .keep item => [item]
  | .delete _ => []
  | .insert items => items

abbrev Script (α : Type) := List (Edit α)

/-- The list that the script applies to. -/
def oldOf (s : Script α) : List α :=
  s.flatMap Edit.old

/-- The list that the script leads to. -/
def newOf (s : Script α) : List α :=
  s.flatMap Edit.new

theorem oldOf_append (s t : Script α) : oldOf (s ++ t) = oldOf s ++ oldOf t := by
  simp [oldOf]

theorem newOf_append (s t : Script α) : newOf (s ++ t) = newOf s ++ newOf t := by
  simp [newOf]

theorem sides_keep (xs : List α) :
    oldOf (xs.map Edit.keep) = xs ∧ newOf (xs.map Edit.keep) = xs := by
  induction xs with
  | nil => exact ⟨rfl, rfl⟩
  | cons x xs ih => simpa [oldOf, newOf, Edit.old, Edit.new] using ih

/-- Deletes the one list and inserts the other. -/
def replace (a b : List α) : Script α :=
  a.map .delete ++ if b.isEmpty then [] else [.insert b]

theorem sides_replace (a b : List α) : oldOf (replace a b) = a ∧ newOf (replace a b) = b := by
  induction a with
  | nil => cases b <;> simp [replace, oldOf, newOf, Edit.old, Edit.new]
  | cons x a ih => simpa [replace, oldOf, newOf, Edit.old, Edit.new] using ih

/-- The number of insertions that are steps of their own. -/
def insertions (s : Script α) : Nat :=
  s.countP fun
    | .insert _ => true
    | _ => false

inductive Mark where
  | kept
  | deleted
  | inserted
deriving DecidableEq, Repr

/-- An item with what becomes of it. -/
abbrev Change (α : Type) := Mark × α

/-- The changes of the script, the first of them after those that are held back: `deleted` and
`inserted` since the last kept item. -/
def changesFrom (deleted inserted : List α) : Script α → List (Change α)
  | [] => deleted.map (Mark.deleted, ·) ++ inserted.map (Mark.inserted, ·)
  | .keep item :: s =>
    deleted.map (Mark.deleted, ·) ++ inserted.map (Mark.inserted, ·) ++
      (Mark.kept, item) :: changesFrom [] [] s
  | .delete item :: s => changesFrom (deleted ++ [item]) inserted s
  | .insert items :: s => changesFrom deleted (inserted ++ items) s

def changesOf (s : Script α) : List (Change α) :=
  changesFrom [] [] s

end PartPatch.Diff
