import PartPatch.Proofs.Patch.Mirror
import PartPatch.Proofs.Tree.Forest
import PartPatch.Proofs.Tree.InOrder
import PartPatch.Xml.Printer

/-!
# What is seen of a compaction

Only the names of nodes change, and only if nodes are dropped. The document, its text and what a
path selects are the same, if nodes are told apart by their places in document order.
-/

namespace PartPatch

set_option autoImplicit false

/-- Where a node stands: the place of its element in document order, and its own in the element. -/
def NodeRef.spot (t : Tree) (r : NodeRef) : Nat × Nat :=
  (t.position r.elementId, r.place)

namespace Tree

variable {v : View} {twin : NodeId → NodeId → Prop} {t u : Tree} {x y : NodeId}

/-! ## Trees that mirror one another in full -/

namespace Mirrors

theorem position (m : t.Mirrors v twin u) (h : twin x y) : t.position x = u.position y := by
  have order := m.attachedNodes
  rw [m.wellFormed.attachedNodes_eq, m.mirrored.attachedNodes_eq] at order
  have same := m.idxOf? order h
  rw [Tree.position, Tree.position, List.idxOf_eq_getD_idxOf?, List.idxOf_eq_getD_idxOf?, same,
    order.length_eq]

theorem spot {r r' : NodeRef} (m : t.Mirrors v twin u) (h : NodeRef.Twin twin r r') :
    r.spot t = r'.spot u := by
  cases h with
  | element h => exact congrArg (·, _) (m.position h)
  | «attribute» h index => exact congrArg (·, _) (m.position h)

theorem map_spot {nodes nodes' : List NodeRef} (m : t.Mirrors v twin u)
    (h : List.Forall₂ (NodeRef.Twin twin) nodes nodes') :
    nodes.map (NodeRef.spot t) = nodes'.map (NodeRef.spot u) := by
  induction h with
  | nil => rfl
  | cons hr _ ih => rw [List.map_cons, List.map_cons, m.spot hr, ih]

theorem select (m : t.Mirrors v twin u) (p : NamedPath) (b : Binding) :
    (p.select t b).map (List.map (NodeRef.spot t)) =
      (p.select u b).map (List.map (NodeRef.spot u)) := by
  have agree : Agree (List.Forall₂ (NodeRef.Twin twin)) (p.select t b) (p.select u b) :=
    (Selection.walk_mirrors m p.path.steps (.cons (.element m.document) .nil)).mapError _
  generalize p.select t b = selected at agree
  generalize p.select u b = selected' at agree
  cases selected with
  | error e =>
    cases selected' with
    | error e' => exact congrArg Except.error agree
    | ok nodes' => exact agree.elim
  | ok nodes =>
    cases selected' with
    | error e' => exact agree.elim
    | ok nodes' => exact congrArg Except.ok (m.map_spot agree)

theorem write (m : t.Mirrors .full twin u) : Xml.write t = Xml.write u := by
  obtain ⟨header, content⟩ := m.alike
  rw [Xml.write, Xml.write, header, content]

end Mirrors

/-! ## Compaction -/

namespace WellFormed

variable (wf : t.WellFormed)
include wf

theorem length_filter_isAttached :
    ((List.range t.size).filter t.isAttached).length = t.preorder.length := by
  apply List.Perm.length_eq
  rw [List.perm_ext_iff_of_nodup (List.nodup_range.filter _) wf.nodup_preorder]
  intro x
  rw [List.mem_filter, List.mem_range, wf.isAttached_iff, wf.mem_preorder_iff]
  exact and_iff_right_of_imp wf.lt_size_of_attached

/-- As many nodes are detached as there are nodes outside document order. -/
theorem length_filter_not_isAttached :
    ((List.range t.size).filter fun x => !t.isAttached x).length =
      t.size - t.preorder.length := by
  have both := List.length_eq_length_filter_add (l := List.range t.size) t.isAttached
  rw [List.length_range, wf.length_filter_isAttached] at both
  exact Nat.eq_sub_of_add_eq' both.symm

theorem compact_cases :
    (t.preorder.length = t.size ∧ t.compact = (t, 0)) ∨
      (t.preorder.length < t.size ∧
        t.compact = (t.attachedPart, t.size - t.preorder.length)) := by
  rcases Nat.lt_or_eq_of_le wf.length_preorder_le with h | h
  · refine Or.inr ⟨h, ?_⟩
    have kept : t.attachedPart.size = t.preorder.length := wf.size_attachedPart
    rw [← kept, Tree.compact, wf.attachedNodes_eq]
    simp only [if_neg h.ne]
    rfl
  · refine Or.inl ⟨h, ?_⟩
    rw [Tree.compact, wf.attachedNodes_eq]
    exact if_pos h

/-- With as many nodes in document order as there are, all of them are attached. -/
theorem attached_iff_lt_size (h : t.preorder.length = t.size) : t.Attached x ↔ x < t.size := by
  refine ⟨wf.lt_size_of_attached, fun hx => ?_⟩
  have none := wf.length_filter_not_isAttached
  rw [h, Nat.sub_self, List.length_eq_zero_iff, List.filter_eq_nil_iff] at none
  have here := none x (List.mem_range.2 hx)
  rwa [Bool.not_eq_true', Bool.not_eq_false, wf.isAttached_iff] at here

/-- The nodes of the compacted tree are the attached ones, under other names if any. -/
theorem exists_twin_compact : ∃ twin, t.Mirrors .full twin t.compact.1 ∧
    (∀ x, t.Attached x ↔ ∃ y, twin x y) ∧ ∀ y, y < t.compact.1.size ↔ ∃ x, twin x y := by
  rcases wf.compact_cases with ⟨all, e⟩ | ⟨_, e⟩
  · rw [e]
    refine ⟨_, wf.mirrors_self .full, fun x => ?_, fun y => ?_⟩
    · rw [wf.attached_iff_lt_size all]
      simp
    · simp
  · rw [e]
    refine ⟨_, wf.mirrors_attachedPart .full, fun x => ?_, fun y => ?_⟩
    · exact ⟨wf.exists_renames, fun ⟨_, hy⟩ => wf.attached_of_renames hy⟩
    · exact wf.lt_size_attachedPart_iff

theorem compact_compact : t.compact.1.compact = (t.compact.1, 0) := by
  rcases wf.compact_cases with ⟨_, e⟩ | ⟨_, e⟩
  · rw [e]
    exact e
  · rw [e]
    exact wf.inOrder_attachedPart.compact wf.attachedPart

theorem attached_compact (hy : y < t.compact.1.size) : t.compact.1.Attached y := by
  rcases wf.compact_cases with ⟨all, e⟩ | ⟨_, e⟩
  · rw [e] at hy ⊢
    exact (wf.attached_iff_lt_size all).2 hy
  · rw [e] at hy ⊢
    exact (wf.inOrder_attachedPart.attached_iff wf.attachedPart).2 hy

/-- Nothing is seen of a compaction but the names of the nodes, and these change only if nodes are
dropped. -/
theorem compact_unseen :
    t.compact.2 = ((List.range t.size).filter fun x => !t.isAttached x).length ∧
    t.compact.1.WellFormed ∧ (∀ y < t.compact.1.size, t.compact.1.Attached y) ∧
    (∃ twin, t.Mirrors .full twin t.compact.1 ∧ (∀ x, t.Attached x ↔ ∃ y, twin x y) ∧
      ∀ y, y < t.compact.1.size ↔ ∃ x, twin x y) ∧
    t.Alike t.compact.1 ∧ Xml.write t.compact.1 = Xml.write t ∧
    (∀ (p : NamedPath) (b : Binding),
      (p.select t.compact.1 b).map (List.map (NodeRef.spot t.compact.1)) =
        (p.select t b).map (List.map (NodeRef.spot t))) ∧
    (t.compact.2 ≠ 0 → ∀ y < t.compact.1.size, t.compact.1.position y = y) ∧
    (t.compact.2 = 0 → t.compact.1 = t) ∧
    t.compact.1.compact = (t.compact.1, 0) := by
  obtain ⟨twin, m, attached, kept⟩ := wf.exists_twin_compact
  refine ⟨?_, wf.compact, fun _ => wf.attached_compact, ⟨twin, m, attached, kept⟩, m.alike,
    m.write.symm, fun p b => (m.select p b).symm, ?_, ?_, wf.compact_compact⟩
  · rw [wf.length_filter_not_isAttached]
    rcases wf.compact_cases with ⟨all, e⟩ | ⟨_, e⟩
    · rw [e, all, Nat.sub_self]
    · rw [e]
  · intro dropped y hy
    rcases wf.compact_cases with ⟨_, e⟩ | ⟨_, e⟩
    · rw [e] at dropped
      exact absurd rfl dropped
    · rw [e] at hy ⊢
      exact wf.inOrder_attachedPart.position hy
  · intro dropped
    rcases wf.compact_cases with ⟨_, e⟩ | ⟨less, e⟩
    · rw [e]
    · rw [e] at dropped
      exact absurd dropped (Nat.sub_pos_of_lt less).ne'

end WellFormed

/-- The first of two elements was detached; the second one holds a third. -/
def pruned : Tree where
  nodes := #[⟨.document, none, [1]⟩, ⟨.element ⟨.plain "r", [], []⟩, some 0, [3]⟩,
    ⟨.element ⟨.plain "a", [], []⟩, none, []⟩, ⟨.element ⟨.plain "b", [], []⟩, some 1, [4]⟩,
    ⟨.element ⟨.plain "c", [⟨.plain "k", "1"⟩], []⟩, some 3, []⟩]
  header := none

theorem built_pruned : pruned.Built := by
  have read : Xml.read "<r><a/><b><c k='1'/></b></r>" = .ok ⟨#[⟨.document, none, [1]⟩,
      ⟨.element ⟨.plain "r", [], []⟩, some 0, [2, 3]⟩, ⟨.element ⟨.plain "a", [], []⟩, some 1, []⟩,
      ⟨.element ⟨.plain "b", [], []⟩, some 1, [4]⟩,
      ⟨.element ⟨.plain "c", [⟨.plain "k", "1"⟩], []⟩, some 3, []⟩], none⟩ := by
    cbv
  exact Built.perform (.detach 2) (by decide) (.read read)

theorem compact_unseen_pruned : pruned.WellFormed ∧ pruned.compact.2 = 1 ∧
    pruned.compact.1.position 3 = 3 ∧ pruned.Alike pruned.compact.1 ∧
    Xml.write pruned.compact.1 = Xml.write pruned ∧
    pruned.compact.1.compact = (pruned.compact.1, 0) := by
  obtain ⟨dropped, -, -, -, alike, text, -, positions, -, again⟩ :=
    built_pruned.wellFormed.compact_unseen
  have one : pruned.compact.2 = 1 := by
    rw [dropped]
    decide
  refine ⟨built_pruned.wellFormed, one, positions ?_ 3 (by decide), alike, text, again⟩
  rw [one]
  exact Nat.one_ne_zero

end Tree

end PartPatch
