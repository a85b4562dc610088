import PartPatch.Proofs.Path.Language

/-!
# The shape of paths that were read

A path is never empty. It begins with an element step, unless it is a single attribute step, and
only its last step can be an attribute step. So what `selectsAttribute` looks at decides the kind of
everything that the path selects.
-/

namespace PartPatch

set_option autoImplicit false

namespace Step

def IsAttribute (s : Step) : Prop :=
  ∃ symbol, s = .attribute symbol

/-- Steps as they are read. -/
def Formed (steps : List Step) : Prop :=
  (∃ symbol, steps = [.attribute symbol]) ∨
    ∃ axis test rest, steps = .element axis test :: rest ∧ ∀ s ∈ rest.dropLast, ¬ s.IsAttribute

variable {steps more : List Step} {axis : Axis} {test : NameTest}

theorem Formed.ne_nil (h : Formed steps) : steps ≠ [] := by
  rcases h with ⟨symbol, rfl⟩ | ⟨axis, test, rest, rfl, _⟩
  · simp
  · simp

theorem Formed.dropLast (h : Formed steps) : ∀ s ∈ steps.dropLast, ¬ s.IsAttribute := by
  rcases h with ⟨symbol, rfl⟩ | ⟨axis, test, rest, rfl, hrest⟩
  · simp
  · cases rest with
    | nil => simp
    | cons s rest =>
      intro s' hs'
      rw [List.dropLast_cons_cons] at hs'
      rcases List.mem_cons.1 hs' with rfl | hs'
      · rintro ⟨symbol, h⟩
        cases h
      · exact hrest s' hs'

theorem Formed.cons (h : Formed more) {predicates : List Step}
    (hp : ∀ s ∈ predicates, ¬ s.IsAttribute) :
    Formed (.element axis test :: predicates ++ more) := by
  refine Or.inr ⟨axis, test, predicates ++ more, rfl, ?_⟩
  intro s hs
  rw [List.dropLast_append_of_ne_nil h.ne_nil] at hs
  rcases List.mem_append.1 hs with hs | hs
  · exact hp s hs
  · exact h.dropLast s hs

theorem Formed.last {predicates : List Step} (hp : ∀ s ∈ predicates, ¬ s.IsAttribute) :
    Formed (.element axis test :: predicates) :=
  Or.inr ⟨axis, test, predicates, rfl, fun s hs => hp s (List.dropLast_subset _ hs)⟩

end Step

namespace Path

open Step (Formed IsAttribute)

theorem PredicatesText.not_isAttribute : ∀ {s predicates r}, PredicatesText s predicates r →
    ∀ q ∈ predicates, ¬ q.IsAttribute
  | _, _, _, .none => by
    intro q hq
    cases hq
  | _, _, _, .more _ _ _ _ rest => by
    intro q hq
    rcases List.mem_cons.1 hq with rfl | hq
    · rintro ⟨symbol, h⟩
      cases h
    · exact rest.not_isAttribute q hq

theorem StepsText.formed : ∀ {axis s steps r}, StepsText axis s steps r → Formed steps
  | _, _, _, _, .attribute _ => Or.inl ⟨_, rfl⟩
  | _, _, _, _, .last _ filters => Formed.last filters.not_isAttribute
  | _, _, _, _, .more _ filters _ rest => rest.formed.cons filters.not_isAttribute

/-- What is read is formed. -/
theorem formed_of_read {source : String} {p : Path} (h : read source = .ok p) :
    Formed p.steps := by
  cases read_eq_ok_iff.1 h with
  | bare _ text _ => exact text.formed
  | separated _ _ text _ => exact text.formed

/-- Only the last of the steps can be an attribute step, so a path that does not end in one has
none. -/
theorem not_isAttribute_of_formed {p : Path} (h : Formed p.steps)
    (hp : p.selectsAttribute = false) : ∀ s ∈ p.steps, ¬ s.IsAttribute := by
  intro s hs
  rw [← List.dropLast_concat_getLast h.ne_nil] at hs
  rcases List.mem_append.1 hs with hs | hs
  · exact h.dropLast s hs
  · rintro ⟨symbol, rfl⟩
    rw [List.mem_singleton] at hs
    rw [selectsAttribute, List.getLast?_eq_some_getLast h.ne_nil, ← hs] at hp
    cases hp

end Path

end PartPatch
