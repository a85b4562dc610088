import PartPatch.Identifier.Allocator
import PartPatch.Proofs.Tree.Compact
import PartPatch.Proofs.Tree.Edit

/-!
# Identifiers in use and identifiers given out

An identifier reads back as its number, so different numbers make different identifiers, and no
identifier in use has a greater number than the greatest one found. An allocator gives out numbers
greater than all those found when it first looked and all those it gave out since.
-/

namespace PartPatch

set_option autoImplicit false

theorem Text.number?_toString {n : Nat} (h : n ≤ maxNumber) :
    number? (toString n).toList = some n := by
  have hlist : (toString n).toList = Nat.toDigits 10 n := Nat.toList_repr
  have hvalue : decimalValue (Nat.toDigits 10 n) = n :=
    Nat.ofDigitChars_eq_foldl.symm.trans Nat.ofDigitChars_ten_toDigits
  have hall : ∀ c ∈ Nat.toDigits 10 n, c.isDigit = true := by
    intro c hc
    exact Nat.isDigit_of_mem_toDigits (by decide) (by decide) hc
  rw [hlist]
  unfold number?
  split
  · next s hs =>
    have := hall '+' (by rw [hs]; exact List.mem_cons_self)
    cases this
  · rw [digits?, hvalue, if_pos ⟨Nat.toDigits_ne_nil, List.all_eq_true.2 hall, h⟩]

namespace IdentifierSpace

variable {space : IdentifierSpace} {t u : Tree} {n m : Nat} {text : String}

/-- An element of the document has the text as the value of an attribute of the namespace. -/
def InUse (space : IdentifierSpace) (t : Tree) (text : String) : Prop :=
  ∃ e, t.Holds e ∧ ∃ a ∈ e.attributes, space.covers a = true ∧ a.value = text

theorem parse?_format (h : n ≤ Text.maxNumber) : space.parse? (space.format n) = some n := by
  have hafter : Text.after? space.start.toList (space.format n).toList =
      some (toString n).toList := by
    rw [Text.after?_eq_some_iff, format, String.toList_append]
  rw [parse?, hafter, Option.bind_some, Text.number?_toString h]

theorem format_ne (hn : n ≤ Text.maxNumber) (hm : m ≤ Text.maxNumber) (h : n ≠ m) :
    space.format n ≠ space.format m := by
  intro e
  have hn' : space.parse? (space.format n) = some n := parse?_format hn
  have hm' : space.parse? (space.format m) = some m := parse?_format hm
  rw [e, hm'] at hn'
  exact h (Option.some.inj hn').symm

theorem le_foldl_max {numbers : List Nat} (h : n ∈ numbers) : n ≤ numbers.foldl Nat.max 0 := by
  have hmax : numbers.foldl Nat.max 0 = Nat.max 0 (numbers.max?.getD 0) := List.foldl_max
  rw [hmax]
  exact (List.le_max?_getD_of_mem h).trans (Nat.le_max_right _ _)

/-- An identifier in use reads as the number. -/
def Reads (space : IdentifierSpace) (t : Tree) (n : Nat) : Prop :=
  ∃ text, space.InUse t text ∧ space.parse? text = some n

theorem mem_numbersIn_iff (wf : t.WellFormed) : n ∈ space.numbersIn t ↔ space.Reads t n := by
  have holds : ∀ e, e ∈ (t.descendantElements Tree.documentId).filterMap t.element? ↔
      t.Holds e := by
    intro e
    rw [List.mem_filterMap]
    refine exists_congr fun x => ?_
    rw [wf.mem_descendantElements_iff]
    constructor
    · rintro ⟨⟨habove, _⟩, he⟩
      exact ⟨habove.atOrAbove, he⟩
    · rintro ⟨hx, he⟩
      have helement : t.isElement x = true :=
        Tree.isElement_iff.2 ⟨e, Tree.element?_eq_some_iff.1 he⟩
      exact ⟨⟨wf.above_of_attached hx helement, helement⟩, he⟩
  rw [numbersIn, List.mem_filterMap]
  constructor
  · rintro ⟨a, ha, hnumber⟩
    obtain ⟨ha, hcovers⟩ := List.mem_filter.1 ha
    obtain ⟨e, he, ha⟩ := List.mem_flatMap.1 ha
    exact ⟨a.value, ⟨e, (holds e).1 he, a, ha, hcovers, rfl⟩, hnumber⟩
  · rintro ⟨_, ⟨e, he, a, ha, hcovers, rfl⟩, hnumber⟩
    exact ⟨a, List.mem_filter.2 ⟨List.mem_flatMap.2 ⟨e, (holds e).2 he, ha⟩, hcovers⟩, hnumber⟩

theorem le_greatestIn_of_reads (wf : t.WellFormed) (h : space.Reads t n) :
    n ≤ space.greatestIn t :=
  le_foldl_max ((mem_numbersIn_iff wf).2 h)

theorem foldl_max_mem (numbers : List Nat) :
    numbers.foldl Nat.max 0 = 0 ∨ numbers.foldl Nat.max 0 ∈ numbers := by
  have hmax : numbers.foldl Nat.max 0 = Nat.max 0 (numbers.max?.getD 0) := List.foldl_max
  rw [hmax]
  cases h : numbers.max? with
  | none => exact Or.inl rfl
  | some n =>
    have hzero : Nat.max 0 n = n := Nat.zero_max n
    rw [Option.getD_some, hzero]
    exact Or.inr (List.max?_mem h)

/-- The greatest number found is one that is read, if any is. -/
theorem reads_greatestIn (wf : t.WellFormed) :
    space.greatestIn t = 0 ∨ space.Reads t (space.greatestIn t) :=
  (foldl_max_mem (space.numbersIn t)).imp_right (mem_numbersIn_iff wf).1

theorem le_greatestIn (wf : t.WellFormed) (hn : n ≤ Text.maxNumber)
    (used : space.InUse t (space.format n)) : n ≤ space.greatestIn t :=
  le_greatestIn_of_reads wf ⟨_, used, parse?_format hn⟩

theorem InUse.mono (used : space.InUse u text)
    (holds : ∀ e, u.Holds e → ∃ e', t.Holds e' ∧ e.attributes ⊆ e'.attributes) :
    space.InUse t text := by
  obtain ⟨e, he, a, ha, hcovers, hvalue⟩ := used
  obtain ⟨e', he', hsub⟩ := holds e he
  exact ⟨e', he', a, hsub ha, hcovers, hvalue⟩

end IdentifierSpace

namespace Allocator

variable {a b c : Allocator} {space : IdentifierSpace} {t : Tree} {n : Nat}

/-- The counter of the namespace was left alone, or it was moved past the number that preceded the
next one. -/
def Advances (space : IdentifierSpace) (t : Tree) (a b : Allocator) : Prop :=
  b.current? space.name = a.current? space.name ∨
    ∃ n, b.current? space.name = some n ∧ a.previous space t < n

theorem previous_of_current? (h : a.current? space.name = some n) : a.previous space t = n := by
  rw [previous, h]

theorem previous_congr (h : b.current? space.name = a.current? space.name) :
    b.previous space t = a.previous space t := by
  rw [previous, previous, h]

/-- A number in use that is still to come has been overlooked by a counter. -/
theorem exists_current?_of_inUse (wf : t.WellFormed) (hn : n ≤ Text.maxNumber)
    (used : space.InUse t (space.format n)) (hlt : a.previous space t < n) :
    ∃ m, a.current? space.name = some m ∧ m < n := by
  cases h : a.current? space.name with
  | none =>
    rw [previous, h] at hlt
    exact absurd hlt (Nat.not_lt.2 (IdentifierSpace.le_greatestIn wf hn used))
  | some m =>
    rw [previous_of_current? h] at hlt
    exact ⟨m, rfl, hlt⟩

theorem Advances.refl (space : IdentifierSpace) (t : Tree) (a : Allocator) :
    Advances space t a a :=
  Or.inl rfl

theorem Advances.trans (hab : Advances space t a b) (hbc : Advances space t b c) :
    Advances space t a c := by
  rcases hab with hb | ⟨n, hb, hn⟩
  · rcases hbc with hc | ⟨m, hc, hm⟩
    · exact Or.inl (hc.trans hb)
    · rw [previous_congr hb] at hm
      exact Or.inr ⟨m, hc, hm⟩
  · rcases hbc with hc | ⟨m, hc, hm⟩
    · exact Or.inr ⟨n, hc.trans hb, hn⟩
    · rw [previous_of_current? hb] at hm
      exact Or.inr ⟨m, hc, hn.trans hm⟩

/-- A counter never goes back. -/
theorem Advances.current? (h : Advances space t a b) (ha : a.current? space.name = some n) :
    ∃ m, b.current? space.name = some m ∧ n ≤ m := by
  rcases h with hb | ⟨m, hb, hm⟩
  · exact ⟨n, hb.trans ha, Nat.le_refl n⟩
  · rw [previous_of_current? ha] at hm
    exact ⟨m, hb, Nat.le_of_lt hm⟩

theorem Advances.previous_le (h : Advances space t a b) :
    a.previous space t ≤ b.previous space t := by
  rcases h with hb | ⟨m, hb, hm⟩
  · exact Nat.le_of_eq (previous_congr hb).symm
  · rw [previous_of_current? hb]
    exact Nat.le_of_lt hm

theorem allocate_eq_ok {id : String} (h : a.allocate space t = .ok (id, b)) :
    a.previous space t + 1 ≤ Text.maxNumber ∧ id = space.format (a.previous space t + 1) ∧
      ∀ name, b.current? name =
        if name = space.name then some (a.previous space t + 1) else a.current? name := by
  simp only [allocate] at h
  split at h
  · next bound =>
    cases h
    exact ⟨bound.2, rfl, fun name => Entries.find?_insert _ _ _ _⟩
  · cases h

theorem current?_allocate {id : String} (h : a.allocate space t = .ok (id, b)) :
    b.current? space.name = some (a.previous space t + 1) := by
  rw [(allocate_eq_ok h).2.2, if_pos rfl]

theorem advances_allocate {id : String} (h : a.allocate space t = .ok (id, b))
    (other : IdentifierSpace) (same : other.name = space.name → other = space) :
    Advances other t a b := by
  by_cases hname : other.name = space.name
  · rw [same hname]
    exact Or.inr ⟨_, current?_allocate h, Nat.lt_succ_self _⟩
  · refine Or.inl ?_
    rw [(allocate_eq_ok h).2.2, if_neg hname]

end Allocator

end PartPatch
