import PartPatch.Path.Basic

/-!
# Steps inside a path

The symbols of a path are those of its steps and of the steps in its predicates, at any depth.
-/

namespace PartPatch

set_option autoImplicit false

theorem mem_sortedDistinct {name : String} {names : List String} :
    name ∈ sortedDistinct names ↔ name ∈ names := by
  rw [sortedDistinct, List.mem_mergeSort, List.mem_eraseDups]

namespace Step

/-- The step stands in the path or, at any depth, in a predicate of it. -/
inductive Within (s : Step) : List Step → Prop where
  | here {steps : List Step} (h : s ∈ steps) : Within s steps
  | inside {steps path : List Step} {equals : Option String} (h : .predicate path equals ∈ steps)
    (within : Within s path) : Within s steps

variable {s : Step} {steps more : List Step}

theorem Within.mono (h : s.Within steps) (sub : steps ⊆ more) : s.Within more := by
  cases h with
  | here h => exact .here (sub h)
  | inside h within => exact .inside (sub h) within

mutual

theorem within_of_mem_nested : ∀ (step : Step) {s : Step}, s ∈ step.nested → s.Within [step]
  | .element axis test, s, h => by
    rw [List.mem_singleton.1 h]
    exact .here List.mem_cons_self
  | .attribute symbol, s, h => by
    rw [List.mem_singleton.1 h]
    exact .here List.mem_cons_self
  | .predicate path equals, s, h => by
    rw [nested] at h
    rcases List.mem_cons.1 h with e | h
    · rw [e]
      exact .here List.mem_cons_self
    · exact .inside List.mem_cons_self (within_of_mem_nestedAll path h)

theorem within_of_mem_nestedAll : ∀ (steps : List Step) {s : Step},
    s ∈ nestedAll steps → s.Within steps
  | [], s, h => by cases h
  | step :: steps, s, h => by
    rw [nestedAll] at h
    rcases List.mem_append.1 h with h | h
    · exact (within_of_mem_nested step h).mono (List.cons_subset_cons step (List.nil_subset steps))
    · exact (within_of_mem_nestedAll steps h).mono (List.subset_cons_self step steps)

end

theorem nestedAll_eq_flatMap (steps : List Step) : nestedAll steps = steps.flatMap nested := by
  induction steps with
  | nil => rfl
  | cons step steps ih => rw [nestedAll, ih, List.flatMap_cons]

theorem mem_nestedAll_iff : s ∈ nestedAll steps ↔ s.Within steps := by
  constructor
  · exact within_of_mem_nestedAll steps
  · intro h
    induction h with
    | here h =>
      rw [nestedAll_eq_flatMap, List.mem_flatMap]
      refine ⟨s, h, ?_⟩
      cases s with
      | element axis test => exact List.mem_cons_self
      | «attribute» symbol => exact List.mem_cons_self
      | predicate path equals => exact List.mem_cons_self
    | inside h _ ih =>
      rw [nestedAll_eq_flatMap, List.mem_flatMap]
      exact ⟨_, h, List.mem_cons_of_mem _ ih⟩

end Step

namespace Path

variable {p : Path} {symbol : String}

theorem mem_elementSymbols_iff :
    symbol ∈ p.elementSymbols ↔ ∃ axis, (Step.element axis (.named symbol)).Within p.steps := by
  rw [elementSymbols, mem_sortedDistinct, List.mem_filterMap]
  simp only [Step.mem_nestedAll_iff]
  constructor
  · rintro ⟨step, within, h⟩
    unfold Step.elementSymbol? at h
    split at h
    · next axis _ =>
      cases h
      exact ⟨axis, within⟩
    · cases h
  · rintro ⟨axis, within⟩
    exact ⟨_, within, rfl⟩

theorem mem_attributeSymbols_iff :
    symbol ∈ p.attributeSymbols ↔ (Step.attribute symbol).Within p.steps := by
  rw [attributeSymbols, mem_sortedDistinct, List.mem_filterMap]
  simp only [Step.mem_nestedAll_iff]
  constructor
  · rintro ⟨step, within, h⟩
    unfold Step.attributeSymbol? at h
    split at h
    · cases h
      exact within
    · cases h
  · intro within
    exact ⟨_, within, rfl⟩

end Path

end PartPatch
