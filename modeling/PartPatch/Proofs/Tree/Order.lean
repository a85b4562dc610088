import Mathlib.Data.List.Nodup
import PartPatch.Proofs.Tree.WellFormed
import PartPatch.Tree.Order

/-!
# Document order

The pre-order of a tree, defined by recursion on what is below a node, and the proof that the
traversal with a list of pending nodes yields it. The traversals of all children and of the
elements among them are instances of one lemma about a function that gives some of the children.
-/

namespace PartPatch.Tree

set_option autoImplicit false

/-- The node, followed by everything that `next` leads to from it; at most `fuel` levels. -/
def preorderUpTo (next : NodeId → List NodeId) : Nat → NodeId → List NodeId
  | 0, _ => []
  | fuel + 1, x => x :: (next x).flatMap (preorderUpTo next fuel)

/-- The nodes at and below a node, each in front of what is below it. -/
def subtree (t : Tree) : NodeId → List NodeId :=
  preorderUpTo t.children t.size

/-- The elements at and below an element, each in front of what is below it. -/
def elementSubtree (t : Tree) : NodeId → List NodeId :=
  preorderUpTo t.childElements t.size

/-- The attached nodes in document order. -/
def preorder (t : Tree) : List NodeId :=
  t.subtree documentId

/-- The place of a node in document order. -/
def position (t : Tree) (id : NodeId) : Nat :=
  t.preorder.idxOf id

/-- A traversal takes the pending nodes one after the other, each with all that is below it. -/
theorem traverse_eq_take {next subtree : NodeId → List NodeId}
    (h : ∀ x, subtree x = x :: (next x).flatMap subtree) (fuel : Nat) (pending : List NodeId) :
    traverse next fuel pending = (pending.flatMap subtree).take fuel := by
  induction fuel generalizing pending with
  | zero => simp [traverse]
  | succ fuel ih =>
    cases pending with
    | nil => simp [traverse]
    | cons x pending =>
      rw [traverse, ih, List.flatMap_cons, h x]
      simp [List.flatMap_append]

theorem childElements_subset (t : Tree) (x : NodeId) : t.childElements x ⊆ t.children x :=
  List.filter_subset_self _

variable {t : Tree} {next : NodeId → List NodeId} {a b c p x y : NodeId}

namespace WellFormed

/-- With fuel for all levels below the node, more of it makes no difference. -/
theorem preorderUpTo_stable (wf : t.WellFormed) (sub : ∀ x, next x ⊆ t.children x) {m n : Nat}
    {x : NodeId} (hx : x < t.size) (hm : t.size < m + (t.lineage x).length)
    (hn : t.size < n + (t.lineage x).length) :
    preorderUpTo next m x = preorderUpTo next n x := by
  refine wf.levels_stable ?_ hx hm hn
  intro m n x h
  rw [preorderUpTo, preorderUpTo]
  congr 1
  exact List.flatMap_congr fun c hc => h c (sub x hc)

theorem preorderUpTo_eq (wf : t.WellFormed) (sub : ∀ x, next x ⊆ t.children x) (x : NodeId) :
    preorderUpTo next t.size x = x :: (next x).flatMap (preorderUpTo next t.size) := by
  obtain ⟨n, hn⟩ := Nat.exists_eq_succ_of_ne_zero (Nat.ne_of_gt wf.documentId_lt)
  conv_lhs => rw [hn, preorderUpTo]
  congr 1
  apply List.flatMap_congr
  intro c hc
  have hp := (wf.mem_children_iff x c).1 (sub x hc)
  have hpos := wf.length_lineage_pos x
  have hlen : (t.lineage c).length = (t.lineage x).length + 1 := by
    rw [wf.lineage_of_parent hp, List.length_cons]
  exact wf.preorderUpTo_stable sub (lt_size_of_parent? hp) (by omega) (by omega)

theorem mem_preorderUpTo_iff (wf : t.WellFormed) (sub : ∀ x, next x ⊆ t.children x)
    (x y : NodeId) :
    y ∈ preorderUpTo next t.size x ↔ Relation.ReflTransGen (fun p c => c ∈ next p) x y := by
  induction x using wf.descend with
  | step x ih =>
    rw [wf.preorderUpTo_eq sub, List.mem_cons, List.mem_flatMap,
      Relation.ReflTransGen.cases_head_iff, eq_comm]
    refine or_congr_right ⟨?_, ?_⟩
    · rintro ⟨c, hc, h⟩
      exact ⟨c, hc, (ih c (sub x hc)).1 h⟩
    · rintro ⟨c, hc, h⟩
      exact ⟨c, hc, (ih c (sub x hc)).2 h⟩

theorem atOrAbove_of_mem (wf : t.WellFormed) (sub : ∀ x, next x ⊆ t.children x)
    (h : y ∈ preorderUpTo next t.size x) : t.AtOrAbove x y := by
  rw [wf.mem_preorderUpTo_iff sub] at h
  exact Relation.ReflTransGen.mono (fun p c hc => (wf.mem_children_iff p c).1 (sub p hc)) _ _ h

theorem nodup_preorderUpTo (wf : t.WellFormed) (sub : ∀ x, next x ⊆ t.children x)
    (nodup : ∀ x, (next x).Nodup) (x : NodeId) : (preorderUpTo next t.size x).Nodup := by
  induction x using wf.descend with
  | step x ih =>
    have parent : ∀ c ∈ next x, t.Parent x c := fun c hc =>
      (wf.mem_children_iff x c).1 (sub x hc)
    rw [wf.preorderUpTo_eq sub, List.nodup_cons]
    constructor
    · intro h
      obtain ⟨c, hc, hx⟩ := List.mem_flatMap.1 h
      exact wf.above_irrefl x (above_iff_child.2 ⟨c, parent c hc, wf.atOrAbove_of_mem sub hx⟩)
    · rw [List.nodup_flatMap]
      refine ⟨fun c hc => ih c (sub x hc), (nodup x).imp_of_mem ?_⟩
      intro c d hc hd hne y hyc hyd
      exact hne (wf.eq_of_common (parent c hc) (parent d hd) (wf.atOrAbove_of_mem sub hyc)
        (wf.atOrAbove_of_mem sub hyd))

theorem length_flatMap_lt (wf : t.WellFormed) (sub : ∀ x, next x ⊆ t.children x)
    (nodup : ∀ x, (next x).Nodup) (hx : x < t.size) :
    ((next x).flatMap (preorderUpTo next t.size)).length < t.size := by
  have h := wf.nodup_preorderUpTo sub nodup x
  have hle : (preorderUpTo next t.size x).length ≤ (List.range t.size).length := by
    apply (h.subperm _).length_le
    intro y hy
    rw [List.mem_range]
    rcases atOrAbove_iff.1 (wf.atOrAbove_of_mem sub hy) with e | hy
    · rwa [e]
    · obtain ⟨p, _, hp⟩ := above_iff.1 hy
      exact lt_size_of_parent? hp
  rw [wf.preorderUpTo_eq sub, List.length_cons, List.length_range] at hle
  exact hle

theorem nodup_childElements (wf : t.WellFormed) (x : NodeId) : (t.childElements x).Nodup :=
  (wf.nodup_children x).filter _

/-! ## All attached nodes -/

/-- The recursive form of pre-order. -/
theorem subtree_eq (wf : t.WellFormed) (x : NodeId) :
    t.subtree x = x :: (t.children x).flatMap t.subtree :=
  wf.preorderUpTo_eq (fun _ => List.Subset.refl _) x

theorem mem_subtree_iff (wf : t.WellFormed) : y ∈ t.subtree x ↔ t.AtOrAbove x y := by
  have h := wf.mem_preorderUpTo_iff (fun x => List.Subset.refl (t.children x)) x y
  rw [AtOrAbove, show t.Parent = fun p c => c ∈ t.children p from
    funext fun p => funext fun c => propext (wf.mem_children_iff p c).symm]
  exact h

theorem nodup_subtree (wf : t.WellFormed) (x : NodeId) : (t.subtree x).Nodup :=
  wf.nodup_preorderUpTo (fun _ => List.Subset.refl _) wf.nodup_children x

theorem mem_preorder_iff (wf : t.WellFormed) : x ∈ t.preorder ↔ t.Attached x :=
  wf.mem_subtree_iff

theorem nodup_preorder (wf : t.WellFormed) : t.preorder.Nodup :=
  wf.nodup_subtree documentId

theorem length_preorder_le (wf : t.WellFormed) : t.preorder.length ≤ t.size := by
  have hlt := wf.length_flatMap_lt (fun _ => List.Subset.refl _) wf.nodup_children
    wf.documentId_lt
  rw [preorder, wf.subtree_eq, List.length_cons]
  exact hlt

/-- With fuel for all nodes, more of it makes no difference. -/
theorem traverse_add (wf : t.WellFormed) (more : Nat) :
    traverse t.children (t.size + more) [documentId] = t.preorder := by
  have hlen : (t.subtree documentId).length ≤ t.size := wf.length_preorder_le
  rw [traverse_eq_take wf.subtree_eq, List.flatMap_singleton]
  exact List.take_of_length_le (hlen.trans (Nat.le_add_right _ _))

/-- The traversal of the attached nodes is their pre-order. -/
theorem attachedNodes_eq (wf : t.WellFormed) : t.attachedNodes = t.preorder :=
  wf.traverse_add 0

theorem pairwise_position (wf : t.WellFormed) :
    t.preorder.Pairwise fun x y => t.position x < t.position y := by
  rw [List.pairwise_iff_getElem]
  intro i j hi hj hij
  rw [position, position, wf.nodup_preorder.idxOf_getElem, wf.nodup_preorder.idxOf_getElem]
  exact hij

/-! ## Elements below a node -/

theorem elementSubtree_eq (wf : t.WellFormed) (x : NodeId) :
    t.elementSubtree x = x :: (t.childElements x).flatMap t.elementSubtree :=
  wf.preorderUpTo_eq t.childElements_subset x

theorem length_flatMap_elementSubtree_le (wf : t.WellFormed) (x : NodeId) :
    ((t.childElements x).flatMap t.elementSubtree).length ≤ t.size := by
  rcases Nat.lt_or_ge x t.size with hx | hx
  · exact Nat.le_of_lt (wf.length_flatMap_lt t.childElements_subset wf.nodup_childElements hx)
  · rw [childElements, children_of_size_le hx]
    exact Nat.zero_le _

theorem traverse_childElements (wf : t.WellFormed) (x : NodeId) (more : Nat) :
    traverse t.childElements (t.size + more) (t.childElements x) =
      (t.childElements x).flatMap t.elementSubtree := by
  have hle := wf.length_flatMap_elementSubtree_le x
  rw [traverse_eq_take wf.elementSubtree_eq]
  exact List.take_of_length_le (hle.trans (Nat.le_add_right _ _))

theorem descendantElements_eq (wf : t.WellFormed) (x : NodeId) :
    t.descendantElements x = (t.childElements x).flatMap t.elementSubtree :=
  wf.traverse_childElements x 0

/-- What is between a node and an element below it are elements. -/
theorem elements_between (wf : t.WellFormed) (h : t.Above x y) (hy : t.isElement y = true) :
    Relation.TransGen (fun p c => c ∈ t.childElements p) x y := by
  induction h with
  | single hp =>
    exact .single (mem_childElements_iff.2 ⟨(wf.mem_children_iff _ _).2 hp, hy⟩)
  | tail hb hp ih =>
    have hc := (wf.mem_children_iff _ _).2 hp
    obtain ⟨q, _, hq⟩ := above_iff.1 hb
    have he := wf.isElement_of_holder hc (wf.ne_document_of_parent hq)
    exact .tail (ih he) (mem_childElements_iff.2 ⟨hc, hy⟩)

theorem mem_descendantElements_iff (wf : t.WellFormed) :
    y ∈ t.descendantElements x ↔ t.Above x y ∧ t.isElement y = true := by
  rw [wf.descendantElements_eq, List.mem_flatMap]
  constructor
  · rintro ⟨c, hc, h⟩
    have hmem := mem_childElements_iff.1 hc
    have hp := (wf.mem_children_iff x c).1 hmem.1
    refine ⟨above_iff_child.2 ⟨c, hp, wf.atOrAbove_of_mem t.childElements_subset h⟩, ?_⟩
    rw [elementSubtree, wf.mem_preorderUpTo_iff t.childElements_subset] at h
    rcases Relation.ReflTransGen.cases_tail_iff _ _ _ |>.1 h with e | ⟨d, _, hd⟩
    · rw [e]
      exact hmem.2
    · exact (mem_childElements_iff.1 hd).2
  · rintro ⟨h, hy⟩
    obtain ⟨c, hc, hcy⟩ := Relation.TransGen.head'_iff.1 (wf.elements_between h hy)
    exact ⟨c, hc, (wf.mem_preorderUpTo_iff t.childElements_subset c y).2 hcy⟩

end WellFormed

end PartPatch.Tree
