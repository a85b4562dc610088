import PartPatch.Proofs.Tree.Order

/-!
# Compacted trees

Compaction keeps the attached nodes and names each by its place in document order. The renaming is
one to one and respects kinds, parents and children, so the tree stays well formed and holds the
same elements.
-/

namespace PartPatch.Tree

set_option autoImplicit false

/-- An element of the document, whatever its node. -/
def Holds (t : Tree) (e : Element) : Prop :=
  ∃ x, t.Attached x ∧ t.element? x = some e

/-- The tree with its attached nodes only. -/
def attachedPart (t : Tree) : Tree :=
  { t with nodes := (t.preorder.filterMap fun id =>
      (t.node? id).map (renumber t.preorder)).toArray }

/-- The node with this name after compaction is the one with that name before. -/
def Renames (t : Tree) (i x : NodeId) : Prop :=
  t.preorder[i]? = some x

variable {t : Tree} {i j x y : NodeId}

theorem compact_eq (wf : t.WellFormed) : t.compact.1 = t ∨ t.compact.1 = t.attachedPart := by
  rw [compact, wf.attachedNodes_eq]
  simp only
  split
  · exact Or.inl rfl
  · exact Or.inr rfl

namespace WellFormed

theorem renames_iff (wf : t.WellFormed) : t.preorder.idxOf? x = some i ↔ t.Renames i x := by
  rw [List.idxOf?_eq_some_iff, Renames, List.getElem?_eq_some_iff]
  constructor
  · rintro ⟨hi, he, _⟩
    exact ⟨hi, he⟩
  · rintro ⟨hi, he⟩
    refine ⟨hi, he, ?_⟩
    intro k hk h
    have := wf.nodup_preorder.getElem_inj_iff.1 (h.trans he.symm)
    omega

theorem renames_unique (wf : t.WellFormed) (hi : t.Renames i x) (hj : t.Renames j x) : i = j :=
  Option.some.inj ((wf.renames_iff.2 hi).symm.trans (wf.renames_iff.2 hj))

theorem exists_renames (wf : t.WellFormed) (hx : t.Attached x) : ∃ i, t.Renames i x :=
  List.mem_iff_getElem?.1 (wf.mem_preorder_iff.2 hx)

theorem attached_of_renames (wf : t.WellFormed) (h : t.Renames i x) : t.Attached x :=
  wf.mem_preorder_iff.1 (List.mem_iff_getElem?.2 ⟨i, h⟩)

theorem renames_document (wf : t.WellFormed) : t.Renames documentId documentId := by
  rw [Renames, preorder, wf.subtree_eq]
  rfl

theorem node?_attachedPart (wf : t.WellFormed) (i : NodeId) :
    t.attachedPart.node? i =
      t.preorder[i]?.bind fun x => (t.node? x).map (renumber t.preorder) := by
  have present : ∀ x ∈ t.preorder, (t.node? x).isSome = true := by
    intro x hx
    obtain ⟨node, hn⟩ := lt_size_iff.1 (wf.lt_size_of_attached (wf.mem_preorder_iff.1 hx))
    rw [hn]
    rfl
  rw [node?, attachedPart]
  simp only [List.getElem?_toArray]
  generalize renumber t.preorder = f
  generalize t.preorder = order at present
  induction order generalizing i with
  | nil => simp
  | cons x order ih =>
    obtain ⟨node, hn⟩ := Option.isSome_iff_exists.1 (present x List.mem_cons_self)
    have hx : (t.node? x).map f = some (f node) := by
      rw [hn]
      rfl
    rw [List.filterMap_cons_some (f := fun id => (t.node? id).map f) hx]
    cases i with
    | zero => simp [hn]
    | succ i =>
      rw [List.getElem?_cons_succ, List.getElem?_cons_succ]
      exact ih i fun y hy => present y (List.mem_cons_of_mem x hy)

theorem node?_of_renames (wf : t.WellFormed) (h : t.Renames i x) :
    t.attachedPart.node? i = (t.node? x).map (renumber t.preorder) := by
  rw [wf.node?_attachedPart, h, Option.bind_some]

theorem kind?_attachedPart (wf : t.WellFormed) (h : t.Renames i x) :
    t.attachedPart.kind? i = t.kind? x := by
  rw [kind?, wf.node?_of_renames h, kind?]
  cases t.node? x <;> rfl

theorem lt_size_attachedPart (wf : t.WellFormed) (h : i < t.attachedPart.size) :
    ∃ x, t.Renames i x := by
  obtain ⟨node, hn⟩ := lt_size_iff.1 h
  rw [wf.node?_attachedPart, Option.bind_eq_some_iff] at hn
  obtain ⟨x, hx, _⟩ := hn
  exact ⟨x, hx⟩

theorem parent_attachedPart_iff (wf : t.WellFormed) :
    t.attachedPart.Parent j i ↔ ∃ p x, t.Renames j p ∧ t.Renames i x ∧ t.Parent p x := by
  have parent : ∀ x, t.Renames i x →
      (t.attachedPart.Parent j i ↔ ∃ p, t.Renames j p ∧ t.Parent p x) := by
    intro x hx
    have h : t.attachedPart.parent? i = (t.parent? x).bind (t.preorder.idxOf? ·) := by
      rw [parent?, wf.node?_of_renames hx, parent?]
      cases t.node? x <;> rfl
    rw [Parent, h, Option.bind_eq_some_iff]
    simp only [wf.renames_iff, Parent, and_comm]
  constructor
  · intro h
    obtain ⟨x, hx⟩ := wf.lt_size_attachedPart (lt_size_of_parent? h)
    obtain ⟨p, hp, hpx⟩ := (parent x hx).1 h
    exact ⟨p, x, hp, hx, hpx⟩
  · rintro ⟨p, x, hp, hx, hpx⟩
    exact (parent x hx).2 ⟨p, hp, hpx⟩

theorem children_attachedPart (wf : t.WellFormed) (h : t.Renames i x) :
    t.attachedPart.children i = (t.children x).filterMap (t.preorder.idxOf? ·) := by
  rw [children_eq, wf.node?_of_renames h, children_eq]
  cases t.node? x <;> rfl

theorem mem_children_attachedPart_iff (wf : t.WellFormed) :
    j ∈ t.attachedPart.children i ↔ t.attachedPart.Parent i j := by
  rw [wf.parent_attachedPart_iff]
  constructor
  · intro h
    obtain ⟨p, hp⟩ := wf.lt_size_attachedPart (lt_size_of_mem_children h)
    rw [wf.children_attachedPart hp, List.mem_filterMap] at h
    obtain ⟨x, hx, hj⟩ := h
    exact ⟨p, x, hp, wf.renames_iff.1 hj, (wf.mem_children_iff p x).1 hx⟩
  · rintro ⟨p, x, hp, hj, hpx⟩
    rw [wf.children_attachedPart hp, List.mem_filterMap]
    exact ⟨x, (wf.mem_children_iff p x).2 hpx, wf.renames_iff.2 hj⟩

theorem nodup_children_attachedPart (wf : t.WellFormed) (i : NodeId) :
    (t.attachedPart.children i).Nodup := by
  by_cases hi : i < t.attachedPart.size
  · obtain ⟨x, hx⟩ := wf.lt_size_attachedPart hi
    rw [wf.children_attachedPart hx]
    apply (wf.nodup_children x).filterMap
    intro y z j hy hz
    exact Option.some.inj ((wf.renames_iff.1 hy).symm.trans (wf.renames_iff.1 hz))
  · rw [children_of_size_le (Nat.not_lt.1 hi)]
    exact List.nodup_nil

theorem isElement_attachedPart (wf : t.WellFormed) (h : t.Renames i x) :
    t.attachedPart.isElement i = t.isElement x := by
  simp only [isElement, element?, wf.kind?_attachedPart h]

theorem attachedPart (wf : t.WellFormed) : t.attachedPart.WellFormed where
  document_iff i := by
    constructor
    · intro h
      obtain ⟨x, hx⟩ := wf.lt_size_attachedPart (lt_size_of_kind? h)
      rw [wf.kind?_attachedPart hx, wf.document_iff] at h
      rw [h] at hx
      exact wf.renames_unique hx wf.renames_document
    · intro h
      rw [h, wf.kind?_attachedPart wf.renames_document, wf.document_iff]
  document_top := by
    rw [Option.eq_none_iff_forall_ne_some]
    intro p hp
    obtain ⟨q, x, _, hx, hq⟩ := wf.parent_attachedPart_iff.1 hp
    have he : x = documentId := Option.some.inj (hx.symm.trans wf.renames_document)
    exact wf.ne_document_of_parent hq he
  mem_children_iff p c := wf.mem_children_attachedPart_iff
  nodup_children := wf.nodup_children_attachedPart
  holder p c h := by
    obtain ⟨q, x, hp, _, hq⟩ := wf.parent_attachedPart_iff.1 (wf.mem_children_attachedPart_iff.1 h)
    rcases wf.holder q x ((wf.mem_children_iff q x).2 hq) with rfl | he
    · exact Or.inl (wf.renames_unique hp wf.renames_document)
    · exact Or.inr (by rwa [wf.isElement_attachedPart hp])
  one_root := by
    have hsub : (t.attachedPart.childElements documentId).Subperm
        ((t.childElements documentId).filterMap (t.preorder.idxOf? ·)) := by
      apply List.Nodup.subperm ((wf.nodup_children_attachedPart documentId).filter _)
      intro i hi
      have hi := mem_childElements_iff.1 hi
      rw [wf.children_attachedPart wf.renames_document, List.mem_filterMap] at hi
      obtain ⟨⟨x, hx, hxi⟩, he⟩ := hi
      rw [wf.isElement_attachedPart (wf.renames_iff.1 hxi)] at he
      exact List.mem_filterMap.2 ⟨x, mem_childElements_iff.2 ⟨hx, he⟩, hxi⟩
    exact (hsub.length_le.trans (List.length_filterMap_le _ _)).trans wf.one_root
  grounded := by
    have h : ∀ i j, t.attachedPart.Parent i j →
        InvImage t.Parent (fun i => t.preorder[i]?.getD documentId) i j := by
      intro i j hij
      obtain ⟨p, x, hp, hx, hpx⟩ := wf.parent_attachedPart_iff.1 hij
      rw [InvImage, hp, hx]
      exact hpx
    exact Subrelation.wf (fun {i j} => h i j) (InvImage.wf _ wf.grounded)

theorem attached_attachedPart (wf : t.WellFormed) (hx : t.Attached x) (h : t.Renames i x) :
    t.attachedPart.Attached i := by
  induction hx generalizing i with
  | refl =>
    rw [wf.renames_unique h wf.renames_document]
    exact attached_document _
  | tail hp hpx ih =>
    obtain ⟨j, hj⟩ := wf.exists_renames hp
    exact (ih hj).tail (wf.parent_attachedPart_iff.2 ⟨_, _, hj, h, hpx⟩)

theorem holds_attachedPart_iff (wf : t.WellFormed) (e : Element) :
    t.attachedPart.Holds e ↔ t.Holds e := by
  constructor
  · rintro ⟨i, _, he⟩
    obtain ⟨x, hx⟩ := wf.lt_size_attachedPart (lt_size_of_kind? (element?_eq_some_iff.1 he))
    refine ⟨x, wf.attached_of_renames hx, ?_⟩
    rwa [element?_eq_some_iff, wf.kind?_attachedPart hx, ← element?_eq_some_iff] at he
  · rintro ⟨x, hx, he⟩
    obtain ⟨i, hi⟩ := wf.exists_renames hx
    refine ⟨i, wf.attached_attachedPart hx hi, ?_⟩
    rwa [element?_eq_some_iff, wf.kind?_attachedPart hi, ← element?_eq_some_iff]

theorem compact (wf : t.WellFormed) : t.compact.1.WellFormed := by
  rcases compact_eq wf with h | h
  · rwa [h]
  · rw [h]
    exact wf.attachedPart

/-- Compaction keeps the elements of the document. -/
theorem holds_compact_iff (wf : t.WellFormed) (e : Element) : t.compact.1.Holds e ↔ t.Holds e := by
  rcases compact_eq wf with h | h
  · rw [h]
  · rw [h, wf.holds_attachedPart_iff]

end WellFormed

end PartPatch.Tree
