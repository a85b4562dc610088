import PartPatch.Proofs.Fragment.Instance
import PartPatch.Proofs.Xml.Growth

/-!
# Documents made from fragments

Content that is planted in a tree stands there as it is. So a document that is made from a fragment
holds the rendered fragment and nothing else.
-/

namespace PartPatch

set_option autoImplicit false

namespace Tree

variable {t u v : Tree} {parent child top x : NodeId}

/-- A node that becomes the last child comes with what is below it. -/
theorem content_of_appendChild (wf : t.WellFormed) (fits : t.Fits parent child)
    (h : t.appendChild parent child = .ok u) :
    u.WellFormed ∧ u.header = t.header ∧ (∀ x, u.kind? x = t.kind? x) ∧
      u.contentBelow parent = t.contentBelow parent ++ t.contentAt child := by
  rw [appendChild] at h
  rcases insertAt_eq wf fits (t.children parent).length with ⟨_, heq⟩ | ⟨second, heq⟩
  · cases heq.symm.trans h
  · cases heq.symm.trans h
    have wfu := fits.wellFormed_link wf second (t.children parent).length
    have same : ∀ x, ¬ t.AtOrAbove x parent →
        (t.link parent (t.children parent).length child).contentAt x = t.contentAt x := by
      intro x hx
      refine wf.contentAt_congr wfu ?_
      intro y hy
      refine ⟨kind?_link .., ?_⟩
      rw [children_link (fits.parent_lt wf), if_neg]
      rintro rfl
      exact hx hy
    have siblings : ∀ c ∈ t.children parent,
        (t.link parent (t.children parent).length child).contentAt c = t.contentAt c := by
      intro c hc
      refine same c ?_
      intro habove
      exact wf.above_irrefl _ (above_iff_child.2 ⟨c, (wf.mem_children_iff _ _).1 hc, habove⟩)
    refine ⟨wfu, rfl, fun x => kind?_link .., ?_⟩
    rw [contentBelow_eq, contentBelow_eq, children_link (fits.parent_lt wf), if_pos rfl,
      Nat.min_self, List.insertIdx_length_self, List.flatMap_append, List.flatMap_congr siblings,
      List.flatMap_singleton, same child fits.acyclic]

theorem Planted.contentBelow (wf : t.WellFormed) (planted : t.Planted u top) (hx : x < t.size) :
    u.contentBelow x = t.contentBelow x := by
  rw [contentBelow_eq, contentBelow_eq, planted.children x hx]
  refine List.flatMap_congr ?_
  intro c hc
  have hparent := (wf.mem_children_iff _ _).1 hc
  refine wf.contentAt_of_extends (p := x) planted.wellFormed planted.extends_
    (fun y hy _ => planted.children y hy) (lt_size_of_parent? hparent) ?_
  intro habove
  exact wf.above_irrefl x (above_iff_child.2 ⟨c, hparent, habove⟩)

mutual

theorem content_of_plant : ∀ (c : Content) {t u : Tree} {top : NodeId}, t.WellFormed →
    t.plant c = .ok (u, top) → u.header = t.header ∧ u.contentAt top = [c]
  | .element e cs, t, u, top, wf, h => by
    have planted := planted_push wf (by simp : NodeKind.element e ≠ .document)
    have hkind : (t.push (.element e)).1.kind? t.size = some (.element e) := by
      rw [kind?_push, if_pos rfl]
    have helement := isElement_iff.2 ⟨e, hkind⟩
    rw [plant] at h
    obtain ⟨v, hv, e⟩ := bind_eq_ok_iff.1 h
    cases e
    obtain ⟨_, hspec, wfu, ext, _⟩ := plantAll_spec cs planted.wellFormed helement
    cases hspec.symm.trans hv
    obtain ⟨header, below⟩ := content_of_plantAll cs planted.wellFormed helement hv
    have empty : (t.push (.element e)).1.contentBelow t.size = [] := by
      rw [contentBelow_eq, children_push, children_of_size_le (Nat.le_refl _)]
      rfl
    refine ⟨header, ?_⟩
    rw [empty, List.nil_append] at below
    rw [wfu.contentAt_eq, ext.kinds t.size planted.top_lt, hkind, below]
  | .text s, t, u, top, wf, h => by
    cases h
    have planted := planted_push wf (by simp : NodeKind.text s ≠ .document)
    have here := planted.wellFormed.contentAt_eq t.size
    rw [kind?_push, if_pos rfl] at here
    exact ⟨rfl, here⟩
  | .comment s, t, u, top, wf, h => by
    cases h
    have planted := planted_push wf (by simp : NodeKind.comment s ≠ .document)
    have here := planted.wellFormed.contentAt_eq t.size
    rw [kind?_push, if_pos rfl] at here
    exact ⟨rfl, here⟩

theorem content_of_plantAll : ∀ (cs : List Content) {t u : Tree} {parent : NodeId}, t.WellFormed →
    t.isElement parent = true → t.plantAll parent cs = .ok u →
    u.header = t.header ∧ u.contentBelow parent = t.contentBelow parent ++ cs
  | [], t, u, parent, _, _, h => by
    rw [plantAll] at h
    cases h
    exact ⟨rfl, (List.append_nil _).symm⟩
  | c :: cs, t, u, parent, wf, hp, h => by
    rw [plantAll] at h
    obtain ⟨⟨v, top⟩, hv, h⟩ := bind_eq_ok_iff.1 h
    obtain ⟨w, hw, h⟩ := bind_eq_ok_iff.1 h
    obtain ⟨_, _, hspec, planted⟩ := plant_spec c wf
    cases hspec.symm.trans hv
    obtain ⟨headerv, here⟩ := content_of_plant c wf hv
    obtain ⟨wfw, headerw, kinds, belowv⟩ :=
      content_of_appendChild planted.wellFormed (planted.fits wf (Or.inr hp)) hw
    have hpw : w.isElement parent = true := by
      rw [isElement_eq_of_kind? (kinds parent)]
      exact planted.extends_.isElement hp
    obtain ⟨header, below⟩ := content_of_plantAll cs wfw hpw h
    have hlt : parent < t.size := by
      obtain ⟨e, he⟩ := isElement_iff.1 hp
      exact lt_size_of_kind? he
    refine ⟨header.trans (headerw.trans headerv), ?_⟩
    rw [below, belowv, planted.contentBelow wf hlt, here, List.append_assoc, List.singleton_append]

end

/-- Planted content becomes the content of a document that was empty. -/
theorem content_of_root (wf : t.WellFormed) (empty : t.children documentId = []) {c : Content}
    (hplant : t.plant c = .ok (u, top)) :
    ∃ v, u.appendChild documentId top = .ok v ∧ v.WellFormed ∧ v.header = t.header ∧
      v.content = [c] := by
  obtain ⟨_, _, hspec, planted⟩ := plant_spec c wf
  cases hspec.symm.trans hplant
  obtain ⟨v, hv, _⟩ := planted.root wf empty
  obtain ⟨header, here⟩ := content_of_plant c wf hplant
  obtain ⟨wfv, headerv, _, below⟩ :=
    content_of_appendChild planted.wellFormed (planted.fits wf (Or.inl rfl)) hv
  refine ⟨v, hv, wfv, headerv.trans header, ?_⟩
  rw [content, below, planted.contentBelow wf wf.documentId_lt, contentBelow_eq, empty, here]
  rfl

/-- There is a document of every content. -/
theorem exists_document (header : Option Header) (c : Content) :
    ∃ t : Tree, t.header = header ∧ t.content = [c] := by
  have wf := wellFormed_empty.withHeader header
  obtain ⟨u, top, hu, _⟩ := plant_spec c wf
  obtain ⟨v, _, _, hheader, hcontent⟩ := content_of_root wf (children_empty documentId) hu
  exact ⟨v, hheader, hcontent⟩

end Tree

namespace Fragment

variable {f : Fragment} {tokens : Token.Resolver} {r : Registry} {t : Tree}

theorem content_of_instantiateDocument (h : f.instantiateDocument tokens r = .ok t) :
    t.header = some documentHeader ∧ ∃ v : Values, t.content = [f.root.render v] := by
  have wf := Tree.wellFormed_empty.withHeader (some documentHeader)
  unfold instantiateDocument at h
  split at h
  · cases h
  · next made hmade =>
    have hplant := plant_of_instantiate (Prod.ext hmade rfl)
    obtain ⟨v, hv, _, header, content⟩ :=
      Tree.content_of_root wf (Tree.children_empty Tree.documentId) hplant
    rw [hv] at h
    cases h
    exact ⟨header, made.values, content⟩

end Fragment

end PartPatch
