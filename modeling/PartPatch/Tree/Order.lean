import PartPatch.Tree.Basic

/-!
# Document order

A traversal keeps the nodes still to be visited in a list and puts the children of the node it
visits in front of them. In a forest it visits each node at most once, so the size of the array
bounds its steps.
-/

namespace PartPatch.Tree

set_option autoImplicit false

/-- Visits the pending nodes and what is below them along `next`, in at most `fuel` steps. -/
def traverse (next : NodeId → List NodeId) : Nat → List NodeId → List NodeId
  | 0, _ => []
  | _ + 1, [] => []
  | fuel + 1, id :: pending => id :: traverse next fuel (next id ++ pending)

/-- The attached nodes in document order. -/
def attachedNodes (t : Tree) : List NodeId :=
  traverse t.children t.size [documentId]

/-- The elements below the node, itself left out, in document order. -/
def descendantElements (t : Tree) (id : NodeId) : List NodeId :=
  traverse t.childElements t.size (t.childElements id)

/-- The number of attached elements. -/
def elementCount (t : Tree) : Nat :=
  (t.descendantElements documentId).length

/-- The node under the position that its parent and children get in `order`. -/
def renumber (order : List NodeId) (node : Node) : Node :=
  { node with
    parent := node.parent.bind fun id => order.idxOf? id
    children := node.children.filterMap fun id => order.idxOf? id }

/-- Drops the detached nodes and names the others by their places in document order, if there are
detached nodes at all; with the number of nodes dropped. -/
def compact (t : Tree) : Tree × Nat :=
  let order := t.attachedNodes
  if order.length = t.size then (t, 0)
  else
    let kept := order.filterMap fun id => (t.node? id).map (renumber order)
    ({ t with nodes := kept.toArray }, t.size - kept.length)

end PartPatch.Tree
