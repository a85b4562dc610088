import PartPatch.Tree.Content
import PartPatch.Tree.Edit
import PartPatch.Tree.Plant

/-!
# The nodes of a tree after a change

Kind, parent and children of each node after every elementary change. What a node is named by does
not change, so each lemma says how one node differs and that all others stay.
-/

namespace PartPatch.Tree

set_option autoImplicit false

variable {t : Tree} {id parent child : NodeId}

theorem node?_eq_none_iff : t.node? id = none ↔ t.size ≤ id := by
  simp [node?, size]

theorem lt_size_iff : id < t.size ↔ ∃ node, t.node? id = some node := by
  rw [← Option.ne_none_iff_exists', Ne, node?_eq_none_iff, Nat.not_le]

theorem lt_size_of_parent? (h : t.parent? id = some parent) : id < t.size := by
  cases hn : t.node? id with
  | none => simp [parent?, hn] at h
  | some node => exact lt_size_iff.2 ⟨node, hn⟩

theorem lt_size_of_kind? {kind : NodeKind} (h : t.kind? id = some kind) : id < t.size := by
  cases hn : t.node? id with
  | none => simp [kind?, hn] at h
  | some node => exact lt_size_iff.2 ⟨node, hn⟩

theorem kind?_size (t : Tree) : t.kind? t.size = none := by
  rw [kind?, node?_eq_none_iff.2 (Nat.le_refl _)]
  rfl

theorem lt_size_of_mem_children (h : child ∈ t.children id) : id < t.size := by
  cases hn : t.node? id with
  | none => simp [children, hn] at h
  | some node => exact lt_size_iff.2 ⟨node, hn⟩

theorem children_eq (t : Tree) (id : NodeId) :
    t.children id = ((t.node? id).map Node.children).getD [] := by
  unfold children
  cases t.node? id <;> rfl

theorem children_of_size_le (h : t.size ≤ id) : t.children id = [] := by
  rw [children_eq, node?_eq_none_iff.2 h]
  rfl

theorem element?_eq_some_iff {e : Element} :
    t.element? id = some e ↔ t.kind? id = some (.element e) := by
  unfold element?
  split
  · next f h => simp [h]
  · next h =>
    constructor
    · intro hf
      simp at hf
    · intro hf
      exact absurd hf (h e)

theorem isElement_iff : t.isElement id = true ↔ ∃ e, t.kind? id = some (.element e) := by
  simp [isElement, Option.isSome_iff_exists, element?_eq_some_iff]

theorem mem_childElements_iff :
    child ∈ t.childElements id ↔ child ∈ t.children id ∧ t.isElement child = true := by
  simp [childElements]

/-! ## A node is added -/

@[simp] theorem push_snd (t : Tree) (kind : NodeKind) : (t.push kind).2 = t.size := rfl

@[simp] theorem header_push (t : Tree) (kind : NodeKind) : (t.push kind).1.header = t.header := rfl

@[simp] theorem size_push (t : Tree) (kind : NodeKind) : (t.push kind).1.size = t.size + 1 := by
  simp [push, size]

theorem node?_push (t : Tree) (kind : NodeKind) (id : NodeId) :
    (t.push kind).1.node? id = if id = t.size then some ⟨kind, none, []⟩ else t.node? id := by
  simp only [push, node?, size, Array.getElem?_push]
  rfl

theorem kind?_push (t : Tree) (kind : NodeKind) (id : NodeId) :
    (t.push kind).1.kind? id = if id = t.size then some kind else t.kind? id := by
  simp only [kind?, node?_push]
  split <;> rfl

theorem parent?_push (t : Tree) (kind : NodeKind) (id : NodeId) :
    (t.push kind).1.parent? id = t.parent? id := by
  simp only [parent?, node?_push]
  split
  · next h => simp [h, node?_eq_none_iff.2 (Nat.le_refl _)]
  · rfl

theorem children_push (t : Tree) (kind : NodeKind) (id : NodeId) :
    (t.push kind).1.children id = t.children id := by
  simp only [children_eq, node?_push]
  split
  · next h => simp [h, node?_eq_none_iff.2 (Nat.le_refl _)]
  · rfl

/-! ## A node is modified -/

@[simp] theorem header_modifyNode (t : Tree) (id : NodeId) (f : Node → Node) :
    (t.modifyNode id f).header = t.header := rfl

@[simp] theorem size_modifyNode (t : Tree) (id : NodeId) (f : Node → Node) :
    (t.modifyNode id f).size = t.size := by
  simp [modifyNode, size]

theorem node?_modifyNode (t : Tree) (id : NodeId) (f : Node → Node) (other : NodeId) :
    (t.modifyNode id f).node? other =
      if other = id then (t.node? other).map f else t.node? other := by
  simp only [modifyNode, node?, Array.getElem?_modify, eq_comm]

theorem kind?_modifyNode {f : Node → Node} (h : ∀ node, (f node).kind = node.kind)
    (other : NodeId) : (t.modifyNode id f).kind? other = t.kind? other := by
  simp only [kind?, node?_modifyNode]
  split
  · cases t.node? other <;> simp [h]
  · rfl

theorem parent?_modifyNode {f : Node → Node} (h : ∀ node, (f node).parent = node.parent)
    (other : NodeId) : (t.modifyNode id f).parent? other = t.parent? other := by
  simp only [parent?, node?_modifyNode]
  split
  · cases t.node? other <;> simp [h]
  · rfl

theorem children_modifyNode {f : Node → Node} (h : ∀ node, (f node).children = node.children)
    (other : NodeId) : (t.modifyNode id f).children other = t.children other := by
  simp only [children_eq, node?_modifyNode]
  split
  · cases t.node? other <;> simp [h]
  · rfl

theorem kind?_setParent (t : Tree) (id : NodeId) (value : Option NodeId) (other : NodeId) :
    (t.modifyNode id fun node => { node with parent := value }).kind? other = t.kind? other := by
  apply kind?_modifyNode
  intro node
  rfl

theorem children_setParent (t : Tree) (id : NodeId) (value : Option NodeId) (other : NodeId) :
    (t.modifyNode id fun node => { node with parent := value }).children other =
      t.children other := by
  apply children_modifyNode
  intro node
  rfl

theorem kind?_setChildren (t : Tree) (id : NodeId) (f : List NodeId → List NodeId)
    (other : NodeId) :
    (t.modifyNode id fun node => { node with children := f node.children }).kind? other =
      t.kind? other := by
  apply kind?_modifyNode
  intro node
  rfl

theorem parent?_setChildren (t : Tree) (id : NodeId) (f : List NodeId → List NodeId)
    (other : NodeId) :
    (t.modifyNode id fun node => { node with children := f node.children }).parent? other =
      t.parent? other := by
  apply parent?_modifyNode
  intro node
  rfl

theorem parent?_setParent (value : Option NodeId) (h : id < t.size) (other : NodeId) :
    (t.modifyNode id fun node => { node with parent := value }).parent? other =
      if other = id then value else t.parent? other := by
  obtain ⟨node, hn⟩ := lt_size_iff.1 h
  simp only [parent?, node?_modifyNode]
  split
  · next e => simp [e, hn]
  · rfl

theorem children_setChildren (f : List NodeId → List NodeId) (h : id < t.size) (other : NodeId) :
    (t.modifyNode id fun node => { node with children := f node.children }).children other =
      if other = id then f (t.children other) else t.children other := by
  obtain ⟨node, hn⟩ := lt_size_iff.1 h
  simp only [children_eq, node?_modifyNode]
  split
  · next e => simp [e, hn]
  · rfl

end PartPatch.Tree
