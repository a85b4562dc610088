import PartPatch.Proofs.Tree.Renumbered

/-!
# Traversals

Three walks tell what is attached to a document and in which order: the one from a node upwards, the
one that numbers all attached nodes, and the one that lists the elements below a node. They agree
with pre-order and so with each other.
-/

namespace PartPatch.Tree

set_option autoImplicit false

/-- The numbers of the attached nodes. A node gets the count of those that were visited before. -/
def documentOrder (t : Tree) : Std.HashMap NodeId Nat :=
  t.attachedNodes.foldl (fun order x => order.insert x order.size) ∅

/-- Both nodes have numbers, and the first one has the smaller. -/
def Precedes (t : Tree) (x y : NodeId) : Prop :=
  ∃ i j, t.documentOrder[x]? = some i ∧ t.documentOrder[y]? = some j ∧ i < j

/-- Nodes that are numbered one after the other get the numbers that follow those in use. -/
theorem number_spec {nodes : List NodeId} (distinct : nodes.Nodup)
    (order : Std.HashMap NodeId Nat) (new : ∀ x ∈ nodes, x ∉ order) :
    let numbered := nodes.foldl (fun order x => order.insert x order.size) order
    numbered.size = order.size + nodes.length ∧ ∀ y, numbered[y]? =
      ((nodes.idxOf? y).map (order.size + ·)).or order[y]? := by
  induction nodes generalizing order with
  | nil => exact ⟨rfl, fun _ => rfl⟩
  | cons x nodes ih =>
    obtain ⟨hx, distinct⟩ := List.nodup_cons.1 distinct
    have size : (order.insert x order.size).size = order.size + 1 := by
      rw [Std.HashMap.size_insert, if_neg (new x List.mem_cons_self)]
    have rest : ∀ z ∈ nodes, z ∉ order.insert x order.size := by
      intro z hz
      rw [Std.HashMap.mem_insert, beq_iff_eq, not_or]
      exact ⟨fun e => hx (e ▸ hz), new z (List.mem_cons_of_mem x hz)⟩
    obtain ⟨count, numbers⟩ := ih distinct _ rest
    rw [size] at count numbers
    refine ⟨?_, fun y => ?_⟩
    · rw [List.foldl_cons, count, List.length_cons, Nat.add_assoc, Nat.add_comm 1]
    · rw [List.foldl_cons, numbers, Std.HashMap.getElem?_insert, List.idxOf?_cons]
      by_cases hxy : x = y
      · rw [← hxy, List.idxOf?_eq_none_iff.2 hx, if_pos (beq_self_eq_true x),
          if_pos (beq_self_eq_true x)]
        rfl
      · rw [if_neg (mt beq_iff_eq.1 hxy), if_neg (mt beq_iff_eq.1 hxy), Option.map_map]
        congr 2
        funext i
        exact Nat.add_right_comm order.size 1 i |>.trans (Nat.add_assoc _ _ _)

/-- A walk that leads on to fewer nodes finds fewer nodes, in the same order. -/
theorem sublist_preorderUpTo {next among : NodeId → List NodeId}
    (sub : ∀ x, (next x).Sublist (among x)) (fuel : Nat) (x : NodeId) :
    (preorderUpTo next fuel x).Sublist (preorderUpTo among fuel x) := by
  induction fuel generalizing x with
  | zero => exact List.nil_sublist _
  | succ fuel ih =>
    rw [preorderUpTo, preorderUpTo]
    refine List.Sublist.cons_cons x ?_
    have fewer := (sub x).flatMap (preorderUpTo next fuel)
    exact fewer.trans (List.Sublist.flatMap_right _ fun c _ => ih c)

variable {t : Tree} {p x y : NodeId} {k : Nat}

namespace WellFormed

variable (wf : t.WellFormed)
include wf

/-! ## Numbers -/

theorem size_documentOrder : t.documentOrder.size = t.preorder.length := by
  have count := (number_spec wf.nodup_preorder ∅ fun _ _ => Std.HashMap.not_mem_empty).1
  rw [documentOrder, wf.attachedNodes_eq, count, Std.HashMap.size_empty, Nat.zero_add]

/-- The number of a node is its place in pre-order. -/
theorem documentOrder_eq_some_iff : t.documentOrder[x]? = some k ↔ t.Renames k x := by
  have numbers := (number_spec wf.nodup_preorder ∅ fun _ _ => Std.HashMap.not_mem_empty).2 x
  rw [documentOrder, wf.attachedNodes_eq, numbers, ← wf.renames_iff]
  simp

theorem mem_documentOrder_iff : x ∈ t.documentOrder ↔ t.Attached x := by
  rw [Std.HashMap.mem_iff_isSome_getElem?, Option.isSome_iff_exists]
  constructor
  · rintro ⟨k, hk⟩
    exact wf.attached_of_renames (wf.documentOrder_eq_some_iff.1 hk)
  · intro hx
    obtain ⟨k, hk⟩ := wf.exists_renames hx
    exact ⟨k, wf.documentOrder_eq_some_iff.2 hk⟩

/-- Each number below the count belongs to one node. -/
theorem existsUnique_documentOrder (hk : k < t.documentOrder.size) :
    ∃! x : NodeId, t.documentOrder[x]? = some k := by
  rw [wf.size_documentOrder] at hk
  refine ⟨t.preorder[k], wf.documentOrder_eq_some_iff.2 (List.getElem?_eq_getElem hk), ?_⟩
  intro x hx
  have here : t.Renames k x := wf.documentOrder_eq_some_iff.1 hx
  exact Option.some.inj (here.symm.trans (List.getElem?_eq_getElem hk))

theorem lt_size_documentOrder (h : t.documentOrder[x]? = some k) : k < t.documentOrder.size := by
  have here : t.Renames k x := wf.documentOrder_eq_some_iff.1 h
  rw [wf.size_documentOrder]
  exact (List.getElem?_eq_some_iff.1 here).1

/-! ## Order -/

theorem pairwise_precedes : t.preorder.Pairwise t.Precedes := by
  rw [List.pairwise_iff_getElem]
  intro i j hi hj hij
  exact ⟨i, j, wf.documentOrder_eq_some_iff.2 (List.getElem?_eq_getElem hi),
    wf.documentOrder_eq_some_iff.2 (List.getElem?_eq_getElem hj), hij⟩

/-- What is at and below a node stands together with all that is at and below its ancestors. -/
theorem sublist_subtree (h : t.AtOrAbove p x) : (t.subtree x).Sublist (t.subtree p) := by
  induction h with
  | refl => exact List.Sublist.refl _
  | @tail q c _ hqc ih =>
    have child : [c].Sublist (t.children q) :=
      List.singleton_sublist.2 ((wf.mem_children_iff q c).2 hqc)
    have below := child.flatMap t.subtree
    rw [List.flatMap_singleton] at below
    refine List.Sublist.trans ?_ ih
    rw [wf.subtree_eq q]
    exact below.cons q

theorem pairwise_precedes_subtree (hp : t.Attached p) :
    (t.subtree p).Pairwise t.Precedes :=
  wf.pairwise_precedes.sublist (wf.sublist_subtree hp)

/-- A node comes before all that is below it. -/
theorem precedes_of_above (hp : t.Attached p) (h : t.Above p x) : t.Precedes p x := by
  have order := wf.pairwise_precedes_subtree hp
  rw [wf.subtree_eq, List.pairwise_cons] at order
  obtain ⟨c, hpc, hcx⟩ := above_iff_child.1 h
  apply order.1
  exact List.mem_flatMap.2 ⟨c, (wf.mem_children_iff p c).2 hpc, wf.mem_subtree_iff.2 hcx⟩

/-- What is at and below a child comes before what is at and below a later one. -/
theorem pairwise_children (hp : t.Attached p) :
    (t.children p).Pairwise fun c d =>
      ∀ x y, t.AtOrAbove c x → t.AtOrAbove d y → t.Precedes x y := by
  have order := wf.pairwise_precedes_subtree hp
  rw [wf.subtree_eq, List.pairwise_cons, List.pairwise_flatMap] at order
  refine order.2.2.imp ?_
  intro c d before x y hcx hdy
  exact before x (wf.mem_subtree_iff.2 hcx) y (wf.mem_subtree_iff.2 hdy)

/-! ## Elements below a node -/

theorem elementSubtree_eq_cons (x : NodeId) :
    t.elementSubtree x = x :: t.descendantElements x := by
  rw [wf.elementSubtree_eq, wf.descendantElements_eq]

/-- The recursive form of the list of elements. -/
theorem descendantElements_rec (x : NodeId) :
    t.descendantElements x = (t.childElements x).flatMap fun c => c :: t.descendantElements c := by
  rw [wf.descendantElements_eq]
  exact List.flatMap_congr fun c _ => wf.elementSubtree_eq_cons c

/-- The lists of elements are all that there is of this recursive form. -/
theorem eq_descendantElements_iff {f : NodeId → List NodeId} :
    (∀ x, f x = (t.childElements x).flatMap fun c => c :: f c) ↔ f = t.descendantElements := by
  constructor
  · intro h
    funext x
    induction x using wf.descend with
    | step x ih =>
      rw [h, wf.descendantElements_rec]
      refine List.flatMap_congr fun c hc => ?_
      rw [ih c (t.childElements_subset x hc)]
  · rintro rfl
    exact wf.descendantElements_rec

theorem nodup_descendantElements (x : NodeId) : (t.descendantElements x).Nodup := by
  have distinct : (t.elementSubtree x).Nodup :=
    wf.nodup_preorderUpTo t.childElements_subset wf.nodup_childElements x
  rw [wf.elementSubtree_eq_cons] at distinct
  exact (List.nodup_cons.1 distinct).2

theorem attached_element_iff :
    t.Above documentId x ∧ t.isElement x = true ↔ t.Attached x ∧ t.isElement x = true :=
  and_congr_left fun helement =>
    ⟨Above.atOrAbove, fun hx => wf.above_of_attached hx helement⟩

theorem pairwise_descendantElements : (t.descendantElements documentId).Pairwise t.Precedes := by
  have fewer : (t.elementSubtree documentId).Sublist t.preorder :=
    sublist_preorderUpTo (fun _ => List.filter_sublist) t.size documentId
  rw [wf.elementSubtree_eq_cons] at fewer
  exact wf.pairwise_precedes.sublist ((List.sublist_cons_self _ _).trans fewer)

/-- The numbers are those of the nodes that the walk upwards finds attached. They follow pre-order,
and so do the lists of elements. -/
theorem traversals_agree :
    (∀ x, x ∈ t.documentOrder ↔ t.isAttached x = true) ∧
    (∀ k < t.documentOrder.size, ∃! x : NodeId, t.documentOrder[x]? = some k) ∧
    (∀ (x : NodeId) (k : Nat), t.documentOrder[x]? = some k → k < t.documentOrder.size) ∧
    (∀ p, t.isAttached p = true → (∀ c, t.Above p c → t.Precedes p c) ∧
      (t.children p).Pairwise fun c d =>
        ∀ x y, t.AtOrAbove c x → t.AtOrAbove d y → t.Precedes x y) ∧
    (∀ x, (t.descendantElements x).Nodup ∧
      ∀ y, y ∈ t.descendantElements x ↔ t.Above x y ∧ t.isElement y = true) ∧
    (∀ f : NodeId → List NodeId,
      (∀ x, f x = (t.childElements x).flatMap fun c => c :: f c) ↔ f = t.descendantElements) ∧
    (∀ y, y ∈ t.descendantElements documentId ↔
      t.isAttached y = true ∧ t.isElement y = true) ∧
    (t.descendantElements documentId).Pairwise t.Precedes := by
  refine ⟨fun x => ?_, fun k => wf.existsUnique_documentOrder,
    fun x k => wf.lt_size_documentOrder, fun p hp => ?_,
    fun x => ⟨wf.nodup_descendantElements x, fun y => wf.mem_descendantElements_iff⟩,
    fun f => wf.eq_descendantElements_iff, fun y => ?_, wf.pairwise_descendantElements⟩
  · rw [wf.mem_documentOrder_iff, wf.isAttached_iff]
  · have attached := wf.isAttached_iff.1 hp
    exact ⟨fun c => wf.precedes_of_above attached, wf.pairwise_children attached⟩
  · rw [wf.mem_descendantElements_iff, wf.attached_element_iff, wf.isAttached_iff]

end WellFormed

theorem traversals_agree_pruned : pruned.WellFormed ∧ pruned.documentOrder.size = 4 ∧
    2 ∉ pruned.documentOrder ∧ pruned.Precedes 3 4 ∧
    pruned.descendantElements documentId = [1, 3, 4] ∧
    [1, 3, 4].Pairwise pruned.Precedes := by
  have wf := built_pruned.wellFormed
  have elements : pruned.descendantElements documentId = [1, 3, 4] := by decide
  obtain ⟨attached, -, -, order, -, -, -, increasing⟩ := wf.traversals_agree
  refine ⟨wf, ?_, ?_, ?_, elements, elements ▸ increasing⟩
  · rw [wf.size_documentOrder]
    decide
  · rw [attached]
    decide
  · exact (order 3 (by decide)).1 4 (.single rfl)

end PartPatch.Tree
