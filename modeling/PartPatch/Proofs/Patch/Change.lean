import PartPatch.Patch.Session
import PartPatch.Proofs.Except
import PartPatch.Proofs.Patch.Target
import PartPatch.Proofs.Tree.Plant

/-!
# How operations change a tree

The changes that operations make to a well-formed tree keep it well formed. Where they are made to
nodes that are there, none of them fails, except that a fragment cannot become a second root.
-/

namespace PartPatch

set_option autoImplicit false

namespace Session

variable {t u v : Tree} {anchor node : NodeId}

theorem wellFormed_of_assign (wf : t.WellFormed) {n : NodeRef} {value : String}
    (h : assign t n value = .ok u) : u.WellFormed := by
  cases n with
  | element x =>
    rcases Tree.setText_cases wf x value with ⟨_, he⟩ | ⟨u', hu, wfu⟩
    · cases h.symm.trans he
    · cases h.symm.trans hu
      exact wfu
  | «attribute» x index =>
    simp only [assign] at h
    split at h
    · next a _ =>
      rcases Tree.setAttribute_cases wf x a.name value with ⟨_, he⟩ | ⟨u', hu, wfu⟩
      · cases h.symm.trans he
      · cases h.symm.trans hu
        exact wfu
    · cases h

theorem assign_eq_ok (wf : t.WellFormed) {n : NodeRef} (hn : n.In t) (value : String) :
    ∃ u, assign t n value = .ok u := by
  cases n with
  | element x =>
    rcases Tree.setText_cases wf x value with ⟨hx, _⟩ | ⟨u, hu, _⟩
    · cases hn.symm.trans hx
    · exact ⟨u, hu⟩
  | «attribute» x index =>
    obtain ⟨a, ha⟩ := Option.isSome_iff_exists.1 hn
    simp only [assign, ha]
    rcases Tree.setAttribute_cases wf x a.name value with ⟨hx, _⟩ | ⟨u, hu, _⟩
    · rw [Tree.attributeAt?, Option.bind_eq_some_iff] at ha
      obtain ⟨e, he, _⟩ := ha
      rw [Tree.isElement, he] at hx
      cases hx
    · exact ⟨u, hu⟩

theorem wellFormed_removeNode (wf : t.WellFormed) (n : NodeRef) : (removeNode t n).WellFormed := by
  cases n with
  | element x => exact wf.detach x
  | «attribute» x index =>
    simp only [removeNode]
    split
    · exact wf.removeAttribute _ _ _
    · exact wf

theorem wellFormed_removeNodes (wf : t.WellFormed) (nodes : List NodeRef) :
    (nodes.foldl removeNode t).WellFormed := by
  induction nodes generalizing t with
  | nil => exact wf
  | cons n nodes ih => exact ih (wellFormed_removeNode wf n)

/-- A new node is attached below the anchor or its parent, unless it would be a second root. -/
theorem place_cases (wf : t.WellFormed) (planted : t.Planted u node)
    (helement : t.isElement anchor = true) (hattached : t.Attached anchor)
    (placement : Placement) :
    ((placement = .before ∨ placement = .after) ∧ t.root? = some anchor ∧
        u.isElement node = true ∧ place u anchor node placement = .error .multipleRoots) ∨
      ∃ v, place u anchor node placement = .ok v ∧ v.WellFormed := by
  have below : ∀ position, ∃ v, u.insertAt anchor position node = .ok v ∧ v.WellFormed := by
    intro position
    have fits := planted.fits wf (Or.inr helement)
    rcases Tree.insertAt_eq planted.wellFormed fits position with ⟨root, _⟩ | ⟨root, heq⟩
    · exact absurd root.1 (Tree.kind?_ne_document wf helement)
    · exact ⟨_, heq, fits.wellFormed_link planted.wellFormed root _⟩
  obtain ⟨p, _, hp⟩ := Tree.above_iff.1 (wf.above_of_attached hattached helement)
  have hmem : anchor ∈ t.children p := (wf.mem_children_iff p anchor).2 hp
  have hanchor : anchor < t.size := Tree.lt_size_of_parent? hp
  have hpu : u.parent? anchor = some p := by rw [planted.extends_.parents anchor hanchor, hp]
  have beside : ∀ position,
      (t.root? = some anchor ∧ u.isElement node = true ∧
        u.insertAt p position node = .error .multipleRoots) ∨
      ∃ v, u.insertAt p position node = .ok v ∧ v.WellFormed := by
    intro position
    have fits := planted.fits wf (wf.holder p anchor hmem)
    rcases Tree.insertAt_eq planted.wellFormed fits position with ⟨root, heq⟩ | ⟨root, heq⟩
    · refine Or.inl ⟨?_, root.2.1, heq⟩
      have hroot : anchor ∈ t.childElements Tree.documentId := by
        rw [← root.1]
        exact Tree.mem_childElements_iff.2 ⟨hmem, helement⟩
      exact wf.root?_eq_some hroot
    · exact Or.inr ⟨_, heq, fits.wellFormed_link planted.wellFormed root _⟩
  obtain ⟨position, hposition⟩ : ∃ position, u.place? anchor = some (p, position) := by
    have hmemu : anchor ∈ u.children p := (planted.wellFormed.mem_children_iff p anchor).2 hpu
    obtain ⟨position, h⟩ := Option.isSome_iff_exists.1 (List.isSome_idxOf?.2 hmemu)
    exact ⟨position, by rw [Tree.place?, hpu]; simp only; rw [h]; rfl⟩
  cases placement with
  | before =>
    simp only [place, Tree.insertBefore, hposition]
    rcases beside position with ⟨root, he, heq⟩ | hv
    · exact Or.inl ⟨Or.inl trivial, root, he, heq⟩
    · exact Or.inr hv
  | after =>
    simp only [place, Tree.insertAfter, hposition]
    rcases beside (position + 1) with ⟨root, he, heq⟩ | hv
    · exact Or.inl ⟨Or.inr trivial, root, he, heq⟩
    · exact Or.inr hv
  | prepend => exact Or.inr (below 0)
  | append => exact Or.inr (below _)

end Session

end PartPatch
