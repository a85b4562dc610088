import PartPatch.Proofs.Tree.Edit
import PartPatch.Tree.Plant

/-!
# Planted content

Planting adds nodes at the end of the array and leaves those that were there alone. It always
succeeds in a well-formed tree, since every node that it attaches is new.
-/

namespace PartPatch.Tree

set_option autoImplicit false

/-- The second tree has all nodes of the first, each of the same kind and below the same parent. -/
structure Extends (t u : Tree) : Prop where
  size_le : t.size ≤ u.size
  kinds : ∀ x < t.size, u.kind? x = t.kind? x
  parents : ∀ x < t.size, u.parent? x = t.parent? x

variable {t u v : Tree} {a x parent child : NodeId}

namespace Extends

theorem refl (t : Tree) : t.Extends t :=
  ⟨Nat.le_refl _, fun _ _ => rfl, fun _ _ => rfl⟩

theorem trans (h : t.Extends u) (h' : u.Extends v) : t.Extends v where
  size_le := h.size_le.trans h'.size_le
  kinds x hx := by rw [h'.kinds x (Nat.lt_of_lt_of_le hx h.size_le), h.kinds x hx]
  parents x hx := by rw [h'.parents x (Nat.lt_of_lt_of_le hx h.size_le), h.parents x hx]

theorem isElement (h : t.Extends u) (hx : t.isElement x = true) : u.isElement x = true := by
  obtain ⟨e, he⟩ := isElement_iff.1 hx
  rw [isElement_iff]
  exact ⟨e, by rw [h.kinds x (lt_size_of_kind? he), he]⟩

/-- Nothing new stands above an old node. -/
theorem atOrAbove (h : t.Extends u) (wf : t.WellFormed) (hx : x < t.size)
    (ha : u.AtOrAbove a x) : t.AtOrAbove a x := by
  induction ha with
  | refl => exact Relation.ReflTransGen.refl
  | tail _ hp ih =>
    rw [Parent, h.parents _ hx] at hp
    exact (ih (wf.lt_size_of_parent hp)).tail hp

theorem lineage (h : t.Extends u) (wf : t.WellFormed) (wfu : u.WellFormed) (hx : x < t.size) :
    u.lineage x = t.lineage x := by
  induction x using wf.grounded.induction with
  | _ x ih =>
    rw [wf.lineage_eq, wfu.lineage_eq, h.parents x hx]
    cases hp : t.parent? x with
    | none => rfl
    | some p =>
      rw [Option.map_some, Option.map_some, ih p hp (wf.lt_size_of_parent hp)]

/-- What stands at or below a new node is new. -/
theorem size_le_of_atOrAbove (h : t.Extends u) (wf : t.WellFormed) (ha : t.size ≤ a)
    (hax : u.AtOrAbove a x) : t.size ≤ x := by
  by_contra hx
  have hlt := Nat.lt_of_not_le hx
  exact Nat.not_le.2 (wf.lt_size_of_atOrAbove (h.atOrAbove wf hlt hax) hlt) ha

end Extends

theorem extends_push (t : Tree) (kind : NodeKind) : t.Extends (t.push kind).1 where
  size_le := by simp
  kinds x hx := by rw [kind?_push, if_neg (Nat.ne_of_lt hx)]
  parents x _ := parent?_push t kind x

/-- What is attached was no node of the first tree. -/
theorem Extends.link (h : t.Extends u) (hc : child < u.size) (hnew : t.size ≤ child)
    (parent : NodeId) (position : Nat) : t.Extends (u.link parent position child) where
  size_le := by
    rw [size_link]
    exact h.size_le
  kinds x hx := by rw [kind?_link, h.kinds x hx]
  parents x hx := by
    rw [parent?_link hc, if_neg (Nat.ne_of_lt (Nat.lt_of_lt_of_le hx hnew)), h.parents x hx]

/-- The tree with new content at its end, not attached to anything; `top` is the node of the
content itself. -/
structure Planted (t u : Tree) (top : NodeId) : Prop where
  wellFormed : u.WellFormed
  extends_ : t.Extends u
  children : ∀ x < t.size, u.children x = t.children x
  top_eq : top = t.size
  top_lt : top < u.size
  free : u.parent? top = none

theorem parent?_size (t : Tree) : t.parent? t.size = none := by
  rw [parent?, node?_eq_none_iff.2 (Nat.le_refl _)]
  rfl

theorem planted_push (wf : t.WellFormed) {kind : NodeKind} (h : kind ≠ .document) :
    t.Planted (t.push kind).1 (t.push kind).2 where
  wellFormed := wf.push h
  extends_ := extends_push t kind
  children x _ := children_push t kind x
  top_eq := rfl
  top_lt := by simp
  free := by rw [parent?_push, push_snd, parent?_size]

theorem Planted.fits (wf : t.WellFormed) (h : t.Planted u child)
    (hp : parent = documentId ∨ t.isElement parent = true) : u.Fits parent child where
  present := h.top_lt
  ne_document := by
    rw [h.top_eq]
    exact Nat.ne_of_gt wf.documentId_lt
  free := h.free
  holder := hp.imp_right h.extends_.isElement
  acyclic ha := by
    have hlt : parent < t.size := by
      rcases hp with rfl | hp
      · exact wf.documentId_lt
      · obtain ⟨e, he⟩ := isElement_iff.1 hp
        exact lt_size_of_kind? he
    exact Nat.not_le.2 hlt
      (h.extends_.size_le_of_atOrAbove wf (Nat.le_of_eq h.top_eq.symm) ha)

/-- New content below an element. -/
theorem Planted.appendChild (wf : t.WellFormed) (h : t.Planted u child)
    (hp : t.isElement parent = true) :
    ∃ v, u.appendChild parent child = .ok v ∧ v.WellFormed ∧ t.Extends v ∧
      ∀ x < t.size, x ≠ parent → v.children x = t.children x := by
  have fits := h.fits wf (Or.inr hp)
  have root : ¬ u.SecondRoot parent child := fun hr => kind?_ne_document wf hp hr.1
  rcases insertAt_eq h.wellFormed fits (u.children parent).length with ⟨hr, _⟩ | ⟨_, heq⟩
  · exact absurd hr root
  · refine ⟨_, heq, fits.wellFormed_link h.wellFormed root _,
      h.extends_.link h.top_lt (Nat.le_of_eq h.top_eq.symm) _ _, ?_⟩
    intro x hx hne
    rw [children_link (fits.parent_lt h.wellFormed), if_neg hne, h.children x hx]

/-- New content below the document, where nothing stands yet. -/
theorem Planted.root (wf : t.WellFormed) (h : t.Planted u child)
    (empty : t.children documentId = []) :
    ∃ v, u.appendChild documentId child = .ok v ∧ v.WellFormed := by
  have fits := h.fits wf (Or.inl rfl)
  have root : ¬ u.SecondRoot documentId child := by
    rintro ⟨_, _, hroot⟩
    rw [root?, childElements, h.children _ wf.documentId_lt, empty] at hroot
    cases hroot
  rcases insertAt_eq h.wellFormed fits (u.children documentId).length with ⟨hr, _⟩ | ⟨_, heq⟩
  · exact absurd hr root
  · exact ⟨_, heq, fits.wellFormed_link h.wellFormed root _⟩

mutual

theorem plant_spec : ∀ (c : Content) {t : Tree}, t.WellFormed →
    ∃ u top, t.plant c = .ok (u, top) ∧ t.Planted u top
  | .element e children, t, wf => by
    have hp := planted_push wf (by simp : NodeKind.element e ≠ .document)
    have he : (t.push (.element e)).1.isElement t.size = true :=
      isElement_iff.2 ⟨e, by rw [kind?_push, if_pos rfl]⟩
    obtain ⟨u, hu, wfu, ext, hchildren⟩ := plantAll_spec children hp.wellFormed he
    refine ⟨u, t.size, ?_, wfu, hp.extends_.trans ext, ?_, rfl, ?_, ?_⟩
    · rw [plant]
      change (do return (← (t.push (.element e)).1.plantAll t.size children, t.size)) = _
      rw [hu]
      rfl
    · intro x hx
      rw [hchildren x (Nat.lt_of_lt_of_le hx hp.extends_.size_le) (Nat.ne_of_lt hx),
        hp.children x hx]
    · exact Nat.lt_of_lt_of_le hp.top_lt ext.size_le
    · rw [← hp.free]
      exact ext.parents _ hp.top_lt
  | .text s, t, wf => ⟨_, _, rfl, planted_push wf (by simp)⟩
  | .comment s, t, wf => ⟨_, _, rfl, planted_push wf (by simp)⟩

theorem plantAll_spec : ∀ (cs : List Content) {t : Tree} {parent : NodeId}, t.WellFormed →
    t.isElement parent = true →
    ∃ u, t.plantAll parent cs = .ok u ∧ u.WellFormed ∧ t.Extends u ∧
      ∀ x < t.size, x ≠ parent → u.children x = t.children x
  | [], t, parent, wf, _ => ⟨t, by rw [plantAll], wf, Extends.refl t, fun _ _ _ => rfl⟩
  | c :: cs, t, parent, wf, hp => by
    obtain ⟨u, top, hu, planted⟩ := plant_spec c wf
    obtain ⟨v, hv, wfv, extv, hchildrenv⟩ := planted.appendChild wf hp
    obtain ⟨w, hw, wfw, extw, hchildrenw⟩ := plantAll_spec cs wfv (extv.isElement hp)
    refine ⟨w, ?_, wfw, extv.trans extw, ?_⟩
    · rw [plantAll, hu]
      change (do (← u.appendChild parent top).plantAll parent cs) = _
      rw [hv]
      exact hw
    · intro x hx hne
      rw [hchildrenw x (Nat.lt_of_lt_of_le hx extv.size_le) hne, hchildrenv x hx hne]

end

/-- At the top of an element that was planted stands the element. -/
theorem kind?_of_plant (wf : t.WellFormed) {e : Element} {cs : List Content} {top : NodeId}
    (h : t.plant (.element e cs) = .ok (u, top)) : u.kind? top = some (.element e) := by
  have planted := planted_push wf (by simp : NodeKind.element e ≠ .document)
  have hkind : (t.push (.element e)).1.kind? t.size = some (.element e) := by
    rw [kind?_push, if_pos rfl]
  obtain ⟨v, hv, _, ext, _⟩ :=
    plantAll_spec cs planted.wellFormed (isElement_iff.2 ⟨e, hkind⟩)
  rw [plant] at h
  change (do return (← (t.push (.element e)).1.plantAll t.size cs, t.size)) = _ at h
  rw [hv] at h
  cases h
  exact (ext.kinds t.size planted.top_lt).trans hkind

/-! ## The content of an element is replaced -/

theorem setText_cases (wf : t.WellFormed) (x : NodeId) (text : String) :
    (t.isElement x = false ∧ t.setText x text = .error (.notAnElement x)) ∨
      ∃ u, t.setText x text = .ok u ∧ u.WellFormed := by
  unfold setText
  split
  · next hx =>
    refine Or.inr ?_
    have wfc := wf.clear x
    have hxc : (t.clear x).isElement x = true := by
      rwa [isElement_eq_of_kind? (kind?_clear t x x)]
    split
    · exact ⟨_, rfl, wfc⟩
    · have planted := planted_push wfc (by simp : NodeKind.text text ≠ .document)
      obtain ⟨v, hv, wfv, _⟩ := planted.appendChild wfc hxc
      exact ⟨v, hv, wfv⟩
  · next hx => exact Or.inl ⟨by simpa using hx, rfl⟩

end PartPatch.Tree
