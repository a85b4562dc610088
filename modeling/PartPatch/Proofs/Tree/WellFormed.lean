import Mathlib.Data.List.Perm.Subperm
import Mathlib.Logic.Relation
import Mathlib.Order.WellFounded
import PartPatch.Proofs.Tree.Nodes

/-!
# Well-formed trees

A tree is well formed if parents and children agree, only the document and elements have children,
the document has at most one element below it, and every chain of parents ends. The nodes are then
a forest: the chain of parents of a node has no repetition, so the size of the array bounds it, and
the fuel of `lineage` is never used up.
-/

namespace PartPatch.Tree

set_option autoImplicit false

/-- The first node is the parent of the second. -/
def Parent (t : Tree) (p c : NodeId) : Prop :=
  t.parent? c = some p

/-- The first node is a proper ancestor of the second. -/
def Above (t : Tree) : NodeId → NodeId → Prop :=
  Relation.TransGen t.Parent

/-- The first node is the second or a proper ancestor of it. -/
def AtOrAbove (t : Tree) : NodeId → NodeId → Prop :=
  Relation.ReflTransGen t.Parent

/-- The document is above the node. -/
def Attached (t : Tree) (id : NodeId) : Prop :=
  t.AtOrAbove documentId id

structure WellFormed (t : Tree) : Prop where
  document_iff : ∀ id, t.kind? id = some .document ↔ id = documentId
  document_top : t.parent? documentId = none
  mem_children_iff : ∀ p c, c ∈ t.children p ↔ t.parent? c = some p
  nodup_children : ∀ p, (t.children p).Nodup
  holder : ∀ p c, c ∈ t.children p → p = documentId ∨ t.isElement p = true
  one_root : (t.childElements documentId).length ≤ 1
  grounded : WellFounded t.Parent

variable {t : Tree} {a b c p x y : NodeId}

theorem parent_unique (h : t.Parent a c) (h' : t.Parent b c) : a = b :=
  Option.some.inj (h.symm.trans h')

/-- Two ancestors of one node stand above one another. -/
theorem atOrAbove_comparable (ha : t.AtOrAbove a c) (hb : t.AtOrAbove b c) :
    t.AtOrAbove a b ∨ t.AtOrAbove b a := by
  have unique : Relator.RightUnique (Function.swap t.Parent) := fun _ _ _ h h' =>
    parent_unique h h'
  have h := Relation.ReflTransGen.total_of_right_unique unique
    (Relation.reflTransGen_swap.2 ha) (Relation.reflTransGen_swap.2 hb)
  rcases h with h | h
  · exact Or.inr (Relation.reflTransGen_swap.1 h)
  · exact Or.inl (Relation.reflTransGen_swap.1 h)

theorem attached_document (t : Tree) : t.Attached documentId :=
  Relation.ReflTransGen.refl

theorem Above.atOrAbove (h : t.Above a b) : t.AtOrAbove a b :=
  Relation.TransGen.to_reflTransGen h

theorem atOrAbove_iff : t.AtOrAbove a b ↔ b = a ∨ t.Above a b :=
  Relation.reflTransGen_iff_eq_or_transGen

theorem above_iff : t.Above a b ↔ ∃ p, t.AtOrAbove a p ∧ t.Parent p b :=
  Relation.TransGen.tail'_iff

/-- A node is at or below another if it is that node or below one of its children. -/
theorem above_iff_child : t.Above a b ↔ ∃ c, t.Parent a c ∧ t.AtOrAbove c b :=
  Relation.TransGen.head'_iff

namespace WellFormed

theorem lt_size_of_parent (wf : t.WellFormed) (h : t.Parent p c) : p < t.size :=
  lt_size_of_mem_children ((wf.mem_children_iff p c).2 h)

theorem documentId_lt (wf : t.WellFormed) : documentId < t.size :=
  lt_size_of_kind? ((wf.document_iff documentId).2 rfl)

theorem above_irrefl (wf : t.WellFormed) (a : NodeId) : ¬ t.Above a a :=
  wf.grounded.transGen.irrefl.irrefl a

theorem ne_document_of_parent (wf : t.WellFormed) (h : t.Parent p c) : c ≠ documentId := by
  intro e
  rw [Parent, e, wf.document_top] at h
  simp at h

theorem isElement_of_holder (wf : t.WellFormed) (h : c ∈ t.children p) (hp : p ≠ documentId) :
    t.isElement p = true :=
  (wf.holder p c h).resolve_left hp

/-- Siblings do not stand above one another. -/
theorem eq_of_siblings (wf : t.WellFormed) (hx : t.Parent p x) (hy : t.Parent p y)
    (h : t.AtOrAbove x y) : x = y := by
  rcases atOrAbove_iff.1 h with e | h
  · exact e.symm
  · obtain ⟨q, hq, hqy⟩ := above_iff.1 h
    rw [parent_unique hqy hy] at hq
    exact absurd (above_iff_child.2 ⟨x, hx, hq⟩) (wf.above_irrefl p)

/-- Different siblings have nothing below them in common. -/
theorem eq_of_common (wf : t.WellFormed) (hx : t.Parent p x) (hy : t.Parent p y)
    (hxc : t.AtOrAbove x c) (hyc : t.AtOrAbove y c) : x = y := by
  rcases atOrAbove_comparable hxc hyc with h | h
  · exact wf.eq_of_siblings hx hy h
  · exact (wf.eq_of_siblings hy hx h).symm

theorem lt_size_of_atOrAbove (wf : t.WellFormed) (h : t.AtOrAbove a b) (hb : b < t.size) :
    a < t.size := by
  rcases atOrAbove_iff.1 h with e | h
  · rwa [← e]
  · obtain ⟨c, hc, _⟩ := above_iff_child.1 h
    exact wf.lt_size_of_parent hc

theorem root?_eq_some (wf : t.WellFormed) (h : x ∈ t.childElements documentId) :
    t.root? = some x := by
  have hone := wf.one_root
  rw [root?]
  match hc : t.childElements documentId, h, hone with
  | [y], h, _ => rw [List.mem_singleton.1 h, List.head?_cons]

end WellFormed

/-! ## The chain of parents -/

theorem atOrAbove_of_mem_lineageUpTo {fuel : Nat} (h : a ∈ t.lineageUpTo fuel x) :
    t.AtOrAbove a x := by
  induction fuel generalizing x with
  | zero => simp [lineageUpTo] at h
  | succ fuel ih =>
    rcases List.mem_cons.1 h with e | h
    · rw [e]
      exact Relation.ReflTransGen.refl
    · split at h
      · next p hp => exact (ih h).tail hp
      · simp at h

theorem lineageUpTo_eq_take (fuel more : Nat) (x : NodeId) :
    t.lineageUpTo fuel x = (t.lineageUpTo (fuel + more) x).take fuel := by
  induction fuel generalizing x with
  | zero => simp [lineageUpTo]
  | succ fuel ih =>
    rw [Nat.add_right_comm]
    simp only [lineageUpTo, List.take_succ_cons]
    split
    · rw [← ih]
    · simp

theorem nodup_lineageUpTo (wf : t.WellFormed) (fuel : Nat) (x : NodeId) :
    (t.lineageUpTo fuel x).Nodup := by
  induction fuel generalizing x with
  | zero => exact List.nodup_nil
  | succ fuel ih =>
    refine List.nodup_cons.2 ⟨?_, ?_⟩
    · split
      · next p hp =>
        intro h
        exact wf.above_irrefl x (above_iff.2 ⟨p, atOrAbove_of_mem_lineageUpTo h, hp⟩)
      · simp
    · split
      · exact ih _
      · exact List.nodup_nil

namespace WellFormed

theorem length_lineageUpTo_le (wf : t.WellFormed) (hx : x < t.size) (fuel : Nat) :
    (t.lineageUpTo fuel x).length ≤ t.size := by
  have sub : t.lineageUpTo fuel x ⊆ List.range t.size := by
    intro a ha
    exact List.mem_range.2 (wf.lt_size_of_atOrAbove (atOrAbove_of_mem_lineageUpTo ha) hx)
  have := ((nodup_lineageUpTo wf fuel x).subperm sub).length_le
  rwa [List.length_range] at this

/-- More fuel than there are nodes gives no longer chain. -/
theorem lineageUpTo_add (wf : t.WellFormed) (hx : x < t.size) (more : Nat) :
    t.lineageUpTo (t.size + more) x = t.lineage x := by
  rw [lineage, lineageUpTo_eq_take t.size more x, List.take_of_length_le]
  exact wf.length_lineageUpTo_le hx _

theorem lineage_eq (wf : t.WellFormed) (x : NodeId) :
    t.lineage x = x :: ((t.parent? x).map t.lineage).getD [] := by
  cases hp : t.parent? x with
  | none =>
    obtain ⟨n, hn⟩ := Nat.exists_eq_succ_of_ne_zero (Nat.ne_of_gt wf.documentId_lt)
    simp [lineage, hn, lineageUpTo, hp]
  | some p =>
    rw [← wf.lineageUpTo_add (lt_size_of_parent? hp) 1]
    simp [lineageUpTo, hp, lineage]

theorem lineage_of_parent (wf : t.WellFormed) (h : t.Parent p x) :
    t.lineage x = x :: t.lineage p := by
  rw [wf.lineage_eq x, h]
  rfl

theorem mem_lineage_iff (wf : t.WellFormed) : a ∈ t.lineage x ↔ t.AtOrAbove a x := by
  constructor
  · exact atOrAbove_of_mem_lineageUpTo
  · intro h
    induction h with
    | refl =>
      rw [wf.lineage_eq]
      exact List.mem_cons_self
    | tail _ hc ih =>
      rw [wf.lineage_of_parent hc]
      exact List.mem_cons_of_mem _ ih

theorem isAttached_iff (wf : t.WellFormed) : t.isAttached x = true ↔ t.Attached x := by
  rw [isAttached, List.contains_iff_mem, wf.mem_lineage_iff]
  rfl

theorem length_lineage_le (wf : t.WellFormed) (hx : x < t.size) :
    (t.lineage x).length ≤ t.size :=
  wf.length_lineageUpTo_le hx _

theorem length_lineage_pos (wf : t.WellFormed) (x : NodeId) : 0 < (t.lineage x).length := by
  rw [wf.lineage_eq]
  exact Nat.succ_pos _

/-- What holds of a node if it holds of its children holds of all nodes. -/
theorem descend (wf : t.WellFormed) {motive : NodeId → Prop}
    (step : ∀ x, (∀ c ∈ t.children x, motive c) → motive x) (x : NodeId) : motive x := by
  generalize hn : t.size - (t.lineage x).length = n
  induction n generalizing x with
  | zero =>
    apply step
    intro c hc
    have hp := (wf.mem_children_iff x c).1 hc
    have := wf.length_lineage_le (lt_size_of_parent? hp)
    rw [wf.lineage_of_parent hp, List.length_cons] at this
    omega
  | succ n ih =>
    apply step
    intro c hc
    have hp := (wf.mem_children_iff x c).1 hc
    apply ih
    rw [wf.lineage_of_parent hp, List.length_cons]
    omega

/-- What is defined level by level from the children of a node no longer changes once there is fuel
for all levels below the node. -/
theorem levels_stable (wf : t.WellFormed) {α : Type} {f : Nat → NodeId → α}
    (step : ∀ m n x, (∀ c ∈ t.children x, f m c = f n c) → f (m + 1) x = f (n + 1) x) {m n : Nat}
    {x : NodeId} (hx : x < t.size) (hm : t.size < m + (t.lineage x).length)
    (hn : t.size < n + (t.lineage x).length) : f m x = f n x := by
  have hle := wf.length_lineage_le hx
  induction m generalizing n x with
  | zero => omega
  | succ m ih =>
    obtain ⟨n, rfl⟩ : ∃ k, n = k + 1 := ⟨n - 1, by omega⟩
    apply step
    intro c hc
    have hp := (wf.mem_children_iff x c).1 hc
    have hc' := lt_size_of_parent? hp
    have hlen : (t.lineage c).length = (t.lineage x).length + 1 := by
      rw [wf.lineage_of_parent hp, List.length_cons]
    exact ih hc' (by omega) (by omega) (wf.length_lineage_le hc')

theorem attached_of_mem_children (wf : t.WellFormed) (hx : t.Attached x)
    (hc : c ∈ t.children x) : t.Attached c :=
  Relation.ReflTransGen.tail hx ((wf.mem_children_iff x c).1 hc)

theorem lt_size_of_attached (wf : t.WellFormed) (hx : t.Attached x) : x < t.size := by
  rcases atOrAbove_iff.1 hx with e | h
  · rw [e]
    exact wf.documentId_lt
  · obtain ⟨p, _, hp⟩ := above_iff.1 h
    exact lt_size_of_parent? hp

end WellFormed

end PartPatch.Tree
