import PartPatch.Proofs.Tree.MirrorEdit

/-!
# Trees in document order

The nodes of an array may be named by their places in document order, all of them. Then none is
detached and there is nothing to compact. Compaction yields such trees, and a tree stays one if a
node is added behind all others.
-/

namespace PartPatch.Tree

set_option autoImplicit false

/-- Document order goes through the array from its first node to its last. -/
def InOrder (t : Tree) : Prop :=
  t.preorder = List.range t.size

variable {t : Tree} {i x : NodeId}

namespace InOrder

variable (h : t.InOrder)
include h

theorem attached_iff (wf : t.WellFormed) : t.Attached x ↔ x < t.size := by
  rw [← wf.mem_preorder_iff, h, List.mem_range]

theorem position (hx : x < t.size) : t.position x = x := by
  rw [Tree.position, h]
  have hx' : x < (List.range t.size).length := by rwa [List.length_range]
  have hat := List.nodup_range.idxOf_getElem x hx'
  rwa [List.getElem_range] at hat

theorem compact (wf : t.WellFormed) : t.compact = (t, 0) := by
  have all : t.attachedNodes.length = t.size := by
    rw [wf.attachedNodes_eq, h, List.length_range]
  rw [Tree.compact]
  exact if_pos all

end InOrder

namespace WellFormed

variable (wf : t.WellFormed)
include wf

theorem lt_size_attachedPart_iff : i < t.attachedPart.size ↔ ∃ x, t.Renames i x := by
  refine ⟨wf.lt_size_attachedPart, ?_⟩
  rintro ⟨x, hx⟩
  obtain ⟨node, hn⟩ := lt_size_iff.1 (wf.lt_size_of_attached (wf.attached_of_renames hx))
  rw [lt_size_iff, wf.node?_of_renames hx, hn]
  exact ⟨_, rfl⟩

theorem size_attachedPart : t.attachedPart.size = t.preorder.length := by
  refine eq_of_forall_lt_iff fun i => ?_
  rw [wf.lt_size_attachedPart_iff, ← isSome_getElem? t.preorder i, Option.isSome_iff_exists]
  rfl

theorem inOrder_attachedPart : t.attachedPart.InOrder := by
  have renamed := (wf.mirrors_attachedPart .full).attachedNodes
  rw [wf.attachedNodes_eq, wf.attachedPart.attachedNodes_eq] at renamed
  rw [InOrder, wf.size_attachedPart]
  apply List.ext_getElem
  · rw [List.length_range]
    exact renamed.length_eq.symm
  · intro k hk hk'
    rw [List.length_range] at hk'
    have here := renamed.get hk' hk
    rw [List.getElem_range]
    exact wf.renames_unique here (List.getElem?_eq_getElem hk')

end WellFormed

/-! ## Growth at the end -/

/-- On the way down to the node every node is the last child of its parent. -/
def LastDown (t : Tree) (x : NodeId) : Prop :=
  ∀ p c, t.Parent p c → t.AtOrAbove c x → (t.children p).getLast? = some c

/-- The second tree is the first one with one more node, the last child of the given one. -/
structure Sprouted (t : Tree) (p : NodeId) (u : Tree) : Prop where
  wellFormed : u.WellFormed
  extends_ : t.Extends u
  size : u.size = t.size + 1
  children : ∀ x, u.children x = if x = p then t.children x ++ [t.size] else t.children x

namespace Sprouted

variable {u : Tree} {p : NodeId} (s : t.Sprouted p u) (wf : t.WellFormed)
include s wf

theorem subtree_aside (h : ¬ t.AtOrAbove x p) : u.subtree x = t.subtree x := by
  induction x using wf.descend with
  | step x ih =>
    have hne : x ≠ p := by
      rintro rfl
      exact h .refl
    rw [s.wellFormed.subtree_eq, wf.subtree_eq, s.children, if_neg hne]
    congr 1
    refine List.flatMap_congr fun c hc => ih c hc fun hcp => h ?_
    exact hcp.head ((wf.mem_children_iff x c).1 hc)

omit wf in
theorem subtree_new (hp : p < t.size) : u.subtree t.size = [t.size] := by
  rw [s.wellFormed.subtree_eq, s.children, if_neg (Nat.ne_of_gt hp),
    children_of_size_le (Nat.le_refl _), List.flatMap_nil]

/-- What is at and below a node on the way to the new one ends with the new one. -/
theorem subtree_above (hp : p < t.size) (last : t.LastDown p) (h : t.AtOrAbove x p) :
    u.subtree x = t.subtree x ++ [t.size] := by
  induction x using wf.descend with
  | step x ih =>
    rw [s.wellFormed.subtree_eq, wf.subtree_eq, s.children, List.cons_append]
    congr 1
    rcases atOrAbove_iff.1 h with rfl | habove
    · have old : ∀ c ∈ t.children p, u.subtree c = t.subtree c := by
        intro c hc
        have hpc := (wf.mem_children_iff p c).1 hc
        refine s.subtree_aside wf fun hcp => wf.above_irrefl p ?_
        exact above_iff_child.2 ⟨c, hpc, hcp⟩
      rw [if_pos rfl, List.flatMap_append, List.flatMap_singleton, s.subtree_new hp,
        List.flatMap_congr old]
    · have hne : x ≠ p := by
        rintro rfl
        exact wf.above_irrefl x habove
      obtain ⟨c, hxc, hcp⟩ := above_iff_child.1 habove
      obtain ⟨others, hchildren⟩ := List.getLast?_eq_some_iff.1 (last x c hxc hcp)
      have distinct := wf.nodup_children x
      rw [hchildren, List.nodup_append] at distinct
      have old : ∀ d ∈ others, u.subtree d = t.subtree d := by
        intro d hd
        have hmem : d ∈ t.children x := by
          rw [hchildren]
          exact List.mem_append_left _ hd
        refine s.subtree_aside wf fun hdp => distinct.2.2 d hd c List.mem_cons_self ?_
        exact wf.eq_of_common ((wf.mem_children_iff x d).1 hmem) hxc hdp hcp
      have hmem : c ∈ t.children x := (wf.mem_children_iff x c).2 hxc
      rw [if_neg hne, hchildren, List.flatMap_append, List.flatMap_append, List.flatMap_singleton,
        List.flatMap_singleton, List.flatMap_congr old, ih c hmem hcp, List.append_assoc]

theorem inOrder (hp : t.Attached p) (last : t.LastDown p) (h : t.InOrder) : u.InOrder := by
  rw [InOrder, preorder, s.subtree_above wf (wf.lt_size_of_attached hp) last hp, s.size,
    List.range_succ]
  exact congrArg (· ++ _) h

theorem lastDown (hp : p < t.size) (last : t.LastDown p) : u.LastDown p := by
  intro q c hqc hcp
  have hcp := s.extends_.atOrAbove wf hp hcp
  have hqc : t.Parent q c := by
    rwa [Parent, s.extends_.parents c (wf.lt_size_of_atOrAbove hcp hp)] at hqc
  have hne : q ≠ p := by
    rintro rfl
    exact wf.above_irrefl q (above_iff_child.2 ⟨c, hqc, hcp⟩)
  rw [s.children, if_neg hne]
  exact last q c hqc hcp

omit wf in
theorem parent_new : u.Parent p t.size := by
  rw [Parent, ← s.wellFormed.mem_children_iff, s.children, if_pos rfl]
  exact List.mem_append_right _ List.mem_cons_self

theorem lastDown_new (hp : p < t.size) (last : t.LastDown p) : u.LastDown t.size := by
  intro q c hqc hc
  rcases atOrAbove_iff.1 hc with rfl | habove
  · rw [parent_unique hqc (s.parent_new), s.children, if_pos rfl]
    exact List.getLast?_concat
  · obtain ⟨r, hcr, hr⟩ := above_iff.1 habove
    rw [parent_unique hr (s.parent_new)] at hcr
    exact s.lastDown wf hp last q c hqc hcr

end Sprouted

end PartPatch.Tree
