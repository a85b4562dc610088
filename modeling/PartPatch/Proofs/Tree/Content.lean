import PartPatch.Proofs.Tree.WellFormed
import PartPatch.Tree.Content

/-!
# The content of well-formed trees

In a well-formed tree the content of a node is made of the contents of its children, whatever the
fuel, and depends on nothing but the nodes at and below it.
-/

namespace PartPatch

set_option autoImplicit false

namespace Content

/-- What the node is that has this content. -/
def kind : Content → NodeKind
  | element e _ => .element e
  | text s => .text s
  | comment s => .comment s

def inside : Content → List Content
  | element _ children => children
  | text _ => []
  | comment _ => []

end Content

namespace Tree

/-- What stands at the node. -/
def contentAt (t : Tree) : NodeId → List Content :=
  t.contentUpTo t.size

variable {t u : Tree} {x : NodeId}

theorem contentBelow_eq (t : Tree) (x : NodeId) :
    t.contentBelow x = (t.children x).flatMap t.contentAt := rfl

theorem contentUpTo_eq_nil (h : t.kind? x = none) (fuel : Nat) : t.contentUpTo fuel x = [] := by
  cases fuel with
  | zero => rfl
  | succ fuel => rw [contentUpTo, h]

namespace WellFormed

/-- With fuel for all levels below the node, more of it makes no difference. -/
theorem contentUpTo_stable (wf : t.WellFormed) {m n : Nat} (hx : x < t.size)
    (hm : t.size < m + (t.lineage x).length) (hn : t.size < n + (t.lineage x).length) :
    t.contentUpTo m x = t.contentUpTo n x := by
  refine wf.levels_stable ?_ hx hm hn
  intro m n x h
  rw [contentUpTo, contentUpTo]
  split
  · rw [List.flatMap_congr h]
  · rfl
  · rfl
  · rfl

theorem contentUpTo_add (wf : t.WellFormed) (more : Nat) (x : NodeId) :
    t.contentUpTo (t.size + more) x = t.contentAt x := by
  by_cases hx : x < t.size
  · have hpos := wf.length_lineage_pos x
    exact wf.contentUpTo_stable hx (by omega) (by omega)
  · have hnone : t.kind? x = none := by
      rw [kind?, node?_eq_none_iff.2 (Nat.not_lt.1 hx)]
      rfl
    rw [contentAt, contentUpTo_eq_nil hnone, contentUpTo_eq_nil hnone]

/-- The recursive form of the content of a node. -/
theorem contentAt_eq (wf : t.WellFormed) (x : NodeId) :
    t.contentAt x = match t.kind? x with
      | some (.element e) => [.element e (t.contentBelow x)]
      | some (.text text) => [.text text]
      | some (.comment text) => [.comment text]
      | _ => [] := by
  rw [← wf.contentUpTo_add 1, contentUpTo]
  rfl

/-- Every node below another has one content. -/
theorem exists_content (wf : t.WellFormed) {c : NodeId} (h : t.Parent x c) :
    ∃ content : Content, t.contentAt c = [content] ∧ t.kind? c = some content.kind ∧
      t.contentBelow c = content.inside := by
  have hdocument := wf.ne_document_of_parent h
  obtain ⟨node, hn⟩ := lt_size_iff.1 (lt_size_of_parent? h)
  have hk : t.kind? c = some node.kind := by
    rw [kind?, hn]
    rfl
  have empty : node.kind.isElement = false → t.contentBelow c = [] := by
    intro hne
    rw [contentBelow_eq, List.flatMap_eq_nil_iff]
    intro e he
    obtain ⟨f, hf⟩ := isElement_iff.1 (wf.isElement_of_holder he hdocument)
    rw [Option.some.inj (hk.symm.trans hf)] at hne
    cases hne
  rw [wf.contentAt_eq, hk]
  cases hkind : node.kind with
  | document =>
    rw [hkind] at hk
    exact absurd ((wf.document_iff c).1 hk) hdocument
  | element e => exact ⟨_, rfl, rfl, rfl⟩
  | text s => exact ⟨_, rfl, rfl, empty (by rw [hkind]; rfl)⟩
  | comment s => exact ⟨_, rfl, rfl, empty (by rw [hkind]; rfl)⟩

/-- The content of a node depends on the nodes at and below it only. -/
theorem contentAt_congr (wf : t.WellFormed) (wfu : u.WellFormed)
    (h : ∀ y, t.AtOrAbove x y → u.kind? y = t.kind? y ∧ u.children y = t.children y) :
    u.contentAt x = t.contentAt x := by
  have levels : ∀ fuel x, (∀ y, t.AtOrAbove x y → u.kind? y = t.kind? y ∧
      u.children y = t.children y) → u.contentUpTo fuel x = t.contentUpTo fuel x := by
    intro fuel
    induction fuel with
    | zero =>
      intro x _
      rfl
    | succ fuel ih =>
      intro x h
      obtain ⟨hk, hc⟩ := h x Relation.ReflTransGen.refl
      have below : ∀ c ∈ t.children x, u.contentUpTo fuel c = t.contentUpTo fuel c := by
        intro c hc
        apply ih
        intro y hy
        exact h y (Relation.ReflTransGen.head ((wf.mem_children_iff x c).1 hc) hy)
      rw [contentUpTo, contentUpTo, hk, hc]
      split
      · rw [List.flatMap_congr below]
      · rfl
      · rfl
      · rfl
  rw [← wf.contentUpTo_add u.size, ← wfu.contentUpTo_add t.size, Nat.add_comm t.size]
  exact levels _ _ h

end WellFormed

end Tree

end PartPatch
