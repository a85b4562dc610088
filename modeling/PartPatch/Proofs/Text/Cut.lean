import Mathlib.Data.List.Basic
import PartPatch.Text.Basic

/-!
# Where a text is cut

A text is cut at the first place where the mark stands. What comes before it holds no mark, and a
mark that is put behind such a text is the first one, unless the mark can begin inside the text and
end outside.
-/

namespace PartPatch.Text

set_option autoImplicit false

variable {mark s before rest : List Char}

theorem after?_eq_none_iff : after? mark s = none ↔ ¬ mark <+: s := by
  rw [Option.eq_none_iff_forall_ne_some, List.IsPrefix, not_exists]
  refine forall_congr' ?_
  intro rest
  rw [ne_eq, after?_eq_some_iff, eq_comm]

/-- A text without the mark is not cut. -/
theorem cut?_eq_none_iff (hmark : mark ≠ []) : cut? mark s = none ↔ ¬ mark <:+: s := by
  induction s with
  | nil => simp [cut?, hmark]
  | cons c s ih =>
    rw [cut?, List.infix_cons_iff, not_or, ← after?_eq_none_iff, ← ih]
    cases after? mark (c :: s) with
    | some rest => simp
    | none => simp

theorem not_infix_of_cut? (hmark : mark ≠ []) (h : cut? mark s = some (before, rest)) :
    ¬ mark <:+: before := by
  induction s generalizing before with
  | nil =>
    rw [cut?, if_neg hmark] at h
    cases h
  | cons c s ih =>
    have whole := append_of_cut? h
    rw [cut?] at h
    split at h
    · cases h
      rw [List.infix_nil]
      exact hmark
    · next hnone =>
      obtain ⟨⟨b, r⟩, hcut, e⟩ := Option.map_eq_some_iff.1 h
      cases e
      rw [List.infix_cons_iff]
      rintro (start | inside)
      · have longer : mark <+: c :: s := by
          rw [whole, List.append_assoc]
          exact start.trans (List.prefix_append _ _)
        exact after?_eq_none_iff.1 hnone longer
      · exact ih hcut inside

theorem infix_iff_drop : mark <:+: s ↔ ∃ place, mark <+: s.drop place := by
  constructor
  · rintro ⟨x, y, rfl⟩
    refine ⟨x.length, ?_⟩
    rw [List.append_assoc, List.drop_left]
    exact List.prefix_append _ _
  · rintro ⟨place, h⟩
    exact h.isInfix.trans (List.drop_suffix place s).isInfix

/-- The mark stands at this place of the text and at no earlier one. -/
def FirstAt (mark s : List Char) (place : Nat) : Prop :=
  mark <+: s.drop place ∧ ∀ earlier < place, ¬ mark <+: s.drop earlier

theorem firstAt_zero_iff : FirstAt mark s 0 ↔ mark <+: s := by
  simp [FirstAt]

theorem firstAt_succ_iff {c : Char} {place : Nat} :
    FirstAt mark (c :: s) (place + 1) ↔ ¬ mark <+: c :: s ∧ FirstAt mark s place := by
  rw [FirstAt, FirstAt, Nat.forall_lt_succ_left', List.drop_zero, List.drop_succ_cons]
  simp only [List.drop_succ_cons]
  exact and_left_comm

/-- A text is cut where the mark stands first. -/
theorem cut?_eq_some_iff (hmark : mark ≠ []) : cut? mark s = some (before, rest) ↔
    s = before ++ mark ++ rest ∧ FirstAt mark s before.length := by
  induction s generalizing before with
  | nil =>
    rw [cut?, if_neg hmark]
    simp [hmark]
  | cons c s ih =>
    rw [cut?]
    by_cases start : mark <+: c :: s
    · obtain ⟨r, hr⟩ := start
      have hafter : after? mark (c :: s) = some r := after?_eq_some_iff.2 hr.symm
      rw [hafter]
      cases before with
      | nil =>
        rw [List.length_nil, firstAt_zero_iff, List.nil_append, ← hr, List.append_cancel_left_eq]
        simp
      | cons d before =>
        rw [List.length_cons, firstAt_succ_iff]
        simp [← hr]
    · rw [after?_eq_none_iff.2 start]
      cases before with
      | nil =>
        rw [List.length_nil, firstAt_zero_iff]
        simp [start]
      | cons d before =>
        rw [List.length_cons, firstAt_succ_iff]
        simp only [Option.map_eq_some_iff, Prod.exists, Prod.mk.injEq, List.cons.injEq,
          List.cons_append, start, not_false_eq_true, true_and]
        constructor
        · rintro ⟨b, r, hcut, ⟨rfl, rfl⟩, rfl⟩
          obtain ⟨hs, first⟩ := ih.1 hcut
          exact ⟨⟨rfl, hs⟩, first⟩
        · rintro ⟨⟨rfl, hs⟩, first⟩
          exact ⟨before, rest, ih.2 ⟨hs, first⟩, ⟨rfl, rfl⟩, rfl⟩

/-- A mark at the start of two texts lies in the first or reaches into the second. -/
theorem prefix_append_cases {x y : List Char} (h : mark <+: x ++ y) :
    mark <+: x ∨ ∃ z, z ≠ [] ∧ mark = x ++ z ∧ z <+: y := by
  rcases Nat.le_total mark.length x.length with hle | hle
  · exact Or.inl (List.prefix_of_prefix_length_le h (List.prefix_append x y) hle)
  · obtain ⟨z, rfl⟩ := List.prefix_of_prefix_length_le (List.prefix_append x y) h hle
    rw [List.prefix_append_right_inj] at h
    by_cases hz : z = []
    · rw [hz, List.append_nil]
      exact Or.inl List.prefix_rfl
    · exact Or.inr ⟨z, hz, rfl, h⟩

/-- A mark whose last character occurs nowhere else in it cannot begin in front of another one. -/
theorem cut?_append {m : List Char} {z : Char} (hz : z ∉ m) (h : ¬ m ++ [z] <:+: s)
    (rest : List Char) : cut? (m ++ [z]) (s ++ (m ++ [z] ++ rest)) = some (s, rest) := by
  induction s with
  | nil =>
    have hafter : after? (m ++ [z]) (m ++ [z] ++ rest) = some rest := after?_eq_some_iff.2 rfl
    rw [List.nil_append]
    rcases hs : m ++ [z] ++ rest with _ | ⟨c, s⟩
    · simp at hs
    · rw [hs] at hafter
      rw [cut?, hafter]
  | cons c s ih =>
    rw [List.infix_cons_iff, not_or] at h
    have hnone : after? (m ++ [z]) (c :: (s ++ (m ++ [z] ++ rest))) = none := by
      rw [after?_eq_none_iff, ← List.cons_append]
      intro start
      rcases prefix_append_cases start with inside | ⟨x, hx, hmark, hbegins⟩
      · exact h.1 inside
      · -- The end of the mark begins the next one, so its last character is there too.
        obtain ⟨y, w, rfl⟩ := (List.eq_nil_or_concat' x).resolve_left hx
        rw [← List.append_assoc] at hmark
        obtain ⟨hm, hw⟩ := List.append_inj' hmark rfl
        rw [List.append_assoc] at hbegins
        have hlt : (y ++ [w]).length ≤ m.length := by
          rw [hm]
          simp
        have hw' : w ∈ m :=
          (List.prefix_of_prefix_length_le hbegins (List.prefix_append _ _) hlt).subset (by simp)
        rw [List.singleton_inj.1 hw] at hz
        exact hz hw'
    rw [List.cons_append, cut?, hnone, ih h.2]
    rfl

/-- No mark spans a character that it does not contain. -/
theorem not_infix_append_cons {x y : List Char} {c : Char} (hc : c ∉ mark) (hx : ¬ mark <:+: x)
    (hy : ¬ mark <:+: y) : ¬ mark <:+: x ++ c :: y := by
  induction x with
  | nil =>
    rw [List.nil_append, List.infix_cons_iff]
    rintro (start | inside)
    · cases mark with
      | nil => exact hy List.nil_infix
      | cons d mark =>
        rw [(List.cons_prefix_cons.1 start).1] at hc
        exact hc List.mem_cons_self
    · exact hy inside
  | cons d x ih =>
    rw [List.infix_cons_iff, not_or] at hx
    rw [List.cons_append, List.infix_cons_iff, ← List.cons_append]
    rintro (start | inside)
    · rcases prefix_append_cases start with hstart | ⟨z, hz, hmark, hbegins⟩
      · exact hx.1 hstart
      · obtain ⟨e, z, rfl⟩ := List.exists_cons_of_ne_nil hz
        rw [hmark, (List.cons_prefix_cons.1 hbegins).1] at hc
        exact hc (by simp)
    · exact ih hx.2 inside

end PartPatch.Text
