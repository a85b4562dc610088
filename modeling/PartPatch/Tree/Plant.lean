import PartPatch.Tree.Content
import PartPatch.Tree.Edit

/-!
# Planting content in a tree

New content is added node by node, a node before what is below it, and stays detached.
-/

namespace PartPatch.Tree

set_option autoImplicit false

mutual

/-- Adds the content below no node yet; with the node at its top. -/
def plant (t : Tree) : Content → Except TreeError (Tree × NodeId)
  | .element e children => do
    let (t, id) := t.push (.element e)
    return (← t.plantAll id children, id)
  | .text s => .ok (t.push (.text s))
  | .comment s => .ok (t.push (.comment s))

def plantAll (t : Tree) (parent : NodeId) : List Content → Except TreeError Tree
  | [] => .ok t
  | c :: cs => do
    let (t, id) ← t.plant c
    (← t.appendChild parent id).plantAll parent cs

end

end PartPatch.Tree
