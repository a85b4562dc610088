import PartPatch.Diff.Edit
import PartPatch.Diff.Middle

/-!
# Scripts between lists

A shortest script is found by taking off what the lists have in common at both ends and dividing the
rest in its middle. Then every insertion is slid as far up and then as far down as the items around
it allow, taking in the insertions that it meets, so that scattered insertions end up together.
-/

namespace PartPatch.Diff

set_option autoImplicit false

variable {α : Type} [DecidableEq α]

/-- The longest common beginning, and what follows it in both lists. -/
def common : List α → List α → List α × List α × List α
  | x :: xs, y :: ys =>
    if x = y then
      let (start, a, b) := common xs ys
      (x :: start, a, b)
    else ([], x :: xs, y :: ys)
  | a, b => ([], a, b)

theorem common_append (a b : List α) :
    (common a b).1 ++ (common a b).2.1 = a ∧ (common a b).1 ++ (common a b).2.2 = b := by
  fun_induction common a b with
  | case1 _ _ _ _ _ _ h ih => simp_all
  | case2 => simp
  | case3 => simp

/-- Two lists without what they have in common at both ends. -/
structure Trimmed (α : Type) where
  start : List α
  old : List α
  new : List α
  last : List α

def trim (a b : List α) : Trimmed α :=
  let (start, x, y) := common a b
  let (last, u, v) := common x.reverse y.reverse
  ⟨start, u.reverse, v.reverse, last.reverse⟩

theorem trim_append (a b : List α) :
    (trim a b).start ++ (trim a b).old ++ (trim a b).last = a ∧
      (trim a b).start ++ (trim a b).new ++ (trim a b).last = b := by
  have h₁ := common_append a b
  have h₂ := common_append (common a b).2.1.reverse (common a b).2.2.reverse
  have e₁ := congrArg List.reverse h₂.1
  have e₂ := congrArg List.reverse h₂.2
  simp only [List.reverse_append, List.reverse_reverse] at e₁ e₂
  constructor
  · refine Eq.trans ?_ h₁.1
    simp only [trim, List.append_assoc, e₁]
  · refine Eq.trans ?_ h₁.2
    simp only [trim, List.append_assoc, e₂]

theorem length_old_trim_le (a b : List α) : (trim a b).old.length ≤ a.length := by
  have h := congrArg List.length (trim_append a b).1
  simp only [List.length_append] at h
  omega

theorem length_new_trim_le (a b : List α) : (trim a b).new.length ≤ b.length := by
  have h := congrArg List.length (trim_append a b).2
  simp only [List.length_append] at h
  omega

/-- Whether a point divides two lists into smaller ones. -/
def Divides (x y : Nat) (a b : List α) : Prop :=
  x ≤ a.length ∧ y ≤ b.length ∧ 0 < x + y ∧ x + y < a.length + b.length

instance (x y : Nat) (a b : List α) : Decidable (Divides x y a b) :=
  inferInstanceAs (Decidable (_ ∧ _ ∧ _ ∧ _))

/-- A shortest script from the one list to the other. -/
def shortest (a b : List α) : Script α :=
  let inner := match middle? (trim a b).old (trim a b).new with
    | none => replace (trim a b).old (trim a b).new
    | some (x, y) =>
      if _h : Divides x y (trim a b).old (trim a b).new then
        shortest ((trim a b).old.take x) ((trim a b).new.take y) ++
          shortest ((trim a b).old.drop x) ((trim a b).new.drop y)
      else replace (trim a b).old (trim a b).new
  (trim a b).start.map .keep ++ inner ++ (trim a b).last.map .keep
termination_by a.length + b.length
decreasing_by
  all_goals
    have h₁ := length_old_trim_le a b
    have h₂ := length_new_trim_le a b
    obtain ⟨hx, hy, hp, hl⟩ := _h
    simp only [List.length_take, List.length_drop]
    omega

theorem sides_shortest (a b : List α) : oldOf (shortest a b) = a ∧ newOf (shortest a b) = b := by
  fun_induction shortest a b with
  | case1 a b inner ih ih' =>
    have h : oldOf inner = (trim a b).old ∧ newOf inner = (trim a b).new := by
      unfold inner
      split
      · exact sides_replace _ _
      · split
        · next h =>
          simp only [oldOf_append, newOf_append, ih _ _ h, ih' _ _ h]
          simp
        · exact sides_replace _ _
    simp only [oldOf_append, newOf_append, sides_keep, h]
    exact trim_append a b

/-- Slides an insertion up over the items before it, the nearest of them first. Gives what remains
before it, the insertion, and what then follows it. -/
def slideUp : Script α → List α → Script α → Script α × List α × Script α
  | .keep item :: before, items, after =>
    if items.getLast? = some item then
      slideUp before (item :: items.dropLast) (.keep item :: after)
    else (.keep item :: before, items, after)
  | .delete item :: before, items, after => slideUp before items (.delete item :: after)
  | .insert more :: before, items, after => slideUp before (more ++ items) after
  | [], items, after => ([], items, after)

/-- Slides an insertion down over the items after it. -/
def slideDown : Script α → List α → Script α → Script α × List α × Script α
  | before, items, .keep item :: after =>
    if items.head? = some item then
      slideDown (.keep item :: before) (items.tail ++ [item]) after
    else (before, items, .keep item :: after)
  | before, items, .delete item :: after => slideDown (.delete item :: before) items after
  | before, items, .insert more :: after => slideDown before (items ++ more) after
  | before, items, [] => (before, items, [])

theorem insertions_slideUp (before : Script α) (items : List α) (after : Script α) :
    insertions (slideUp before items after).2.2 = insertions after := by
  fun_induction slideUp before items after <;> simp_all [insertions]

theorem insertions_slideDown (before : Script α) (items : List α) (after : Script α) :
    insertions (slideDown before items after).2.2 ≤ insertions after := by
  fun_induction slideDown before items after <;> (simp_all [insertions]; try omega)

theorem oldOf_slideUp (before : Script α) (items : List α) (after : Script α) :
    oldOf (slideUp before items after).1.reverse ++ oldOf (slideUp before items after).2.2 =
      oldOf before.reverse ++ oldOf after := by
  fun_induction slideUp before items after <;>
    simp_all [oldOf, Edit.old]

theorem newOf_slideUp (before : Script α) (items : List α) (after : Script α) :
    newOf (slideUp before items after).1.reverse ++ (slideUp before items after).2.1 ++
        newOf (slideUp before items after).2.2 =
      newOf before.reverse ++ items ++ newOf after := by
  fun_induction slideUp before items after with
  | case1 item before items after h ih =>
    obtain ⟨start, rfl⟩ := List.getLast?_eq_some_iff.1 h
    simp_all [newOf, Edit.new]
  | case2 => rfl
  | case3 => simp_all [newOf, Edit.new]
  | case4 => simp_all [newOf, Edit.new]
  | case5 => rfl

theorem oldOf_slideDown (before : Script α) (items : List α) (after : Script α) :
    oldOf (slideDown before items after).1.reverse ++ oldOf (slideDown before items after).2.2 =
      oldOf before.reverse ++ oldOf after := by
  fun_induction slideDown before items after <;>
    simp_all [oldOf, Edit.old]

theorem newOf_slideDown (before : Script α) (items : List α) (after : Script α) :
    newOf (slideDown before items after).1.reverse ++ (slideDown before items after).2.1 ++
        newOf (slideDown before items after).2.2 =
      newOf before.reverse ++ items ++ newOf after := by
  fun_induction slideDown before items after with
  | case1 before items item after h ih =>
    obtain ⟨rest, rfl⟩ := List.head?_eq_some_iff.1 h
    simp_all [newOf, Edit.new]
  | case2 => rfl
  | case3 => simp_all [newOf, Edit.new]
  | case4 => simp_all [newOf, Edit.new]
  | case5 => rfl

/-- Slides the insertions of the second script in turn; the first is what comes before it, the
nearest first. -/
def slideAll (before : Script α) : Script α → Script α
  | [] => before.reverse
  | .keep item :: after => slideAll (.keep item :: before) after
  | .delete item :: after => slideAll (.delete item :: before) after
  | .insert items :: after =>
    let up := slideUp before items after
    let down := slideDown up.1 up.2.1 up.2.2
    slideAll (.insert down.2.1 :: down.1) down.2.2
termination_by after => (insertions after, after.length)
decreasing_by
  · right; simp
  · right; simp
  · left
    have h₁ := insertions_slideUp before items after
    have h₂ := insertions_slideDown (slideUp before items after).1
      (slideUp before items after).2.1 (slideUp before items after).2.2
    have h₃ : insertions (.insert items :: after) = insertions after + 1 := by simp [insertions]
    show insertions _ < _
    omega

theorem sides_slideAll (before after : Script α) :
    oldOf (slideAll before after) = oldOf before.reverse ++ oldOf after ∧
      newOf (slideAll before after) = newOf before.reverse ++ newOf after := by
  fun_induction slideAll before after with
  | case1 => simp [oldOf, newOf]
  | case2 before item after ih => simp_all [oldOf, newOf, Edit.old, Edit.new]
  | case3 before item after ih => simp_all [oldOf, newOf, Edit.old, Edit.new]
  | case4 before items after up down ih =>
    have o₁ := oldOf_slideUp before items after
    have o₂ := oldOf_slideDown up.1 up.2.1 up.2.2
    have n₁ := newOf_slideUp before items after
    have n₂ := newOf_slideDown up.1 up.2.1 up.2.2
    simp only [List.reverse_cons, oldOf_append, newOf_append] at ih ⊢
    refine ⟨ih.1.trans ?_, ih.2.trans ?_⟩
    · rw [show oldOf [Edit.insert down.2.1] = [] from rfl, List.append_nil]
      exact (o₂.trans o₁).trans rfl
    · rw [show newOf [Edit.insert down.2.1] = down.2.1 by simp [newOf, Edit.new]]
      refine (n₂.trans n₁).trans ?_
      simp [newOf, Edit.new]

/-- The script from the one list to the other. -/
def script (a b : List α) : Script α :=
  slideAll [] (shortest a b)

theorem sides_script (a b : List α) : oldOf (script a b) = a ∧ newOf (script a b) = b := by
  have h := sides_slideAll [] (shortest a b)
  rw [(sides_shortest a b).1, (sides_shortest a b).2] at h
  exact h

/-- What changes from the one list to the other. -/
def changes (a b : List α) : List (Change α) :=
  changesOf (script a b)

end PartPatch.Diff
