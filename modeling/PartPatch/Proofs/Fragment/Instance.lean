import PartPatch.Fragment.Instance
import PartPatch.Proofs.Except
import PartPatch.Proofs.Tree.Plant
import PartPatch.Proofs.Xml.Reader

/-!
# Instances of fragments

An instance can be planted in every well-formed tree. Making one fails only for want of a token, of
a number, or of an identifier namespace.
-/

namespace PartPatch.Fragment

set_option autoImplicit false

variable {f : Fragment} {tokens : Token.Resolver} {t : Tree} {a : Allocator} {r : Registry}
  {e : Error}

/-- Why an instance may be refused. -/
inductive Refused (f : Fragment) (r : Registry) : Error → Prop where
  | token (e : Token.Unresolved) : Refused f r (.unresolvedToken e)
  | exhausted (e : Allocator.Exhausted) : Refused f r (.exhausted e)
  | space (i : String × String) (mem : i ∈ f.identifiers) (none : r.identifierSpace? i.1 = none) :
    Refused f r (.unknownSpace f.name i.1)

theorem allocateAll_error {fragment : String} {identifiers : List (String × String)}
    (h : (allocateAll r fragment t identifiers a).1 = .error e) :
    (∃ x, e = .exhausted x) ∨
      ∃ i ∈ identifiers, r.identifierSpace? i.1 = none ∧ e = .unknownSpace fragment i.1 := by
  induction identifiers generalizing a with
  | nil => cases h
  | cons i rest ih =>
    simp only [allocateAll] at h
    split at h
    · next hnone =>
      cases h
      exact Or.inr ⟨i, List.mem_cons_self, hnone, rfl⟩
    · next space _ =>
      split at h
      · cases h
        exact Or.inl ⟨_, rfl⟩
      · next a' _ =>
        have hrest : (allocateAll r fragment t rest a').1 = .error e := by
          cases hr : (allocateAll r fragment t rest a').1 with
          | error e' =>
            simp only [hr, Except.map] at h
            exact congrArg _ (Except.error.inj h)
          | ok made =>
            simp only [hr, Except.map] at h
            cases h
        rcases ih hrest with hx | ⟨j, hj, hnone, he⟩
        · exact Or.inl hx
        · exact Or.inr ⟨j, List.mem_cons_of_mem i hj, hnone, he⟩

theorem values_error (h : (f.values tokens t a r).1 = .error e) : Refused f r e := by
  unfold values at h
  split at h
  · next e' he =>
    cases h
    obtain ⟨name, _, hname⟩ := exists_of_mapM_eq_error he
    split at hname
    · cases hname
    · cases hname
      exact .token _
  · next resolved _ =>
    cases hr : (allocateAll r f.name t f.identifiers a).1 with
    | error e' =>
      simp only [hr, Except.map] at h
      cases h
      rcases allocateAll_error hr with ⟨x, rfl⟩ | ⟨i, hi, hnone, rfl⟩
      · exact .exhausted x
      · exact .space i hi hnone
    | ok made =>
      simp only [hr, Except.map] at h
      cases h

theorem instantiate_cases (wf : t.WellFormed) (f : Fragment) (tokens : Token.Resolver)
    (a : Allocator) (r : Registry) :
    (∃ made, (f.instantiate tokens t a r).1 = .ok made ∧
        t.Planted made.tree made.root ∧ (f.values tokens t a r).1 = .ok made.values) ∨
      ∃ e, (f.instantiate tokens t a r).1 = .error e ∧ Refused f r e := by
  unfold instantiate
  rcases hv : f.values tokens t a r with ⟨e | v, a'⟩
  · have he : (f.values tokens t a r).1 = .error e := by rw [hv]
    exact Or.inr ⟨e, rfl, values_error he⟩
  · obtain ⟨u, top, hu, planted⟩ := Tree.plant_spec (f.root.render v) wf
    refine Or.inl ⟨⟨u, top, v⟩, ?_, planted, rfl⟩
    simp only [hu]

theorem plant_of_instantiate {made : Instance} {left : Allocator}
    (h : f.instantiate tokens t a r = (.ok made, left)) :
    t.plant (f.root.render made.values) = .ok (made.tree, made.root) := by
  unfold instantiate at h
  split at h
  · cases h
  · next v a' _ =>
    split at h
    · cases h
    · next u root hplant =>
      cases h
      exact hplant

theorem instantiateDocument_cases (f : Fragment) (tokens : Token.Resolver) (r : Registry) :
    (∃ u, f.instantiateDocument tokens r = .ok u ∧ u.WellFormed) ∨
      ∃ e, f.instantiateDocument tokens r = .error e ∧ Refused f r e := by
  have wf := Tree.wellFormed_empty.withHeader (some documentHeader)
  unfold instantiateDocument
  rcases instantiate_cases wf f tokens .empty r with ⟨made, hmade, planted, _⟩ | ⟨e, he, refused⟩
  · obtain ⟨u, hu, wfu⟩ := planted.root wf (Tree.children_empty Tree.documentId)
    refine Or.inl ⟨u, ?_, wfu⟩
    rw [hmade]
    dsimp only
    rw [hu]
    rfl
  · refine Or.inr ⟨e, ?_, refused⟩
    rw [he]

end PartPatch.Fragment
