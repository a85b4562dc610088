import PartPatch.Fragment.Template
import PartPatch.Tree.Name

/-!
# Fragments

A fragment is an element with everything below it, whose attribute values and texts are template
texts. Its placeholders are listed in the order in which the texts would be written: a node before
its children, attributes before the node's own text.
-/

namespace PartPatch

set_option autoImplicit false

inductive FragmentNode where
  | node (name : QName) (attributes : List (QName × TemplateText)) (text : Option TemplateText)
      (children : List FragmentNode)
deriving Repr

namespace FragmentNode

mutual

/-- All template texts of the node and of those below it. -/
def texts : FragmentNode → List TemplateText
  | .node _ attributes text children =>
    attributes.map Prod.snd ++ text.toList ++ textsOfAll children

def textsOfAll : List FragmentNode → List TemplateText
  | [] => []
  | n :: ns => texts n ++ textsOfAll ns

end

mutual

/-- The number of elements. -/
def count : FragmentNode → Nat
  | .node _ _ _ children => 1 + countAll children

def countAll : List FragmentNode → Nat
  | [] => 0
  | n :: ns => count n + countAll ns

end

end FragmentNode

structure Fragment where
  name : String
  root : FragmentNode
deriving Repr

namespace Fragment

/-- The distinct tokens in the order of their first occurrence. -/
def tokens (f : Fragment) : List String :=
  (f.root.texts.flatMap TemplateText.tokens).eraseDups

/-- The distinct identifiers, each with namespace and label, in the order of their first
occurrence. -/
def identifiers (f : Fragment) : List (String × String) :=
  (f.root.texts.flatMap TemplateText.identifiers).eraseDups

def nodeCount (f : Fragment) : Nat :=
  f.root.count

end Fragment

end PartPatch
