import PartPatch.Proofs.Tree.Nodes
import PartPatch.Proofs.Tree.Normal

/-!
# Trees without their texts

The *skeleton* of a tree is what does not depend on texts and values of attributes. Trees with one
skeleton have contents with one skeleton.
-/

namespace PartPatch

set_option autoImplicit false

def Attribute.skeleton (a : Attribute) : Attribute :=
  { a with value := "" }

def Element.skeleton (e : Element) : Element :=
  { e with attributes := e.attributes.map Attribute.skeleton }

def NodeKind.skeleton : NodeKind → NodeKind
  | .element e => .element e.skeleton
  | .text _ => .text ""
  | kind => kind

def Node.skeleton (node : Node) : Node :=
  { node with kind := node.kind.skeleton }

/-- The tree with all texts and all values of attributes empty. -/
def Tree.skeleton (t : Tree) : Tree :=
  { t with nodes := t.nodes.map Node.skeleton }

namespace Element

variable {e f : Element} (same : f.skeleton = e.skeleton)
include same

theorem name_of_skeleton : f.name = e.name := by
  change f.skeleton.name = e.skeleton.name
  rw [same]

theorem declarations_of_skeleton : f.declarations = e.declarations := by
  change f.skeleton.declarations = e.skeleton.declarations
  rw [same]

theorem names_of_skeleton :
    f.attributes.map Attribute.name = e.attributes.map Attribute.name := by
  have hnames : ∀ g : Element, g.skeleton.attributes.map Attribute.name =
      g.attributes.map Attribute.name := by
    intro g
    rw [skeleton, List.map_map]
    rfl
  rw [← hnames f, same, hnames e]

end Element

namespace Content

mutual

def skeleton : Content → Content
  | .element e children => .element e.skeleton (skeletons children)
  | .text _ => .text ""
  | .comment s => .comment s

def skeletons : List Content → List Content
  | [] => []
  | c :: cs => skeleton c :: skeletons cs

end

theorem skeletons_eq_map (cs : List Content) : skeletons cs = cs.map skeleton := by
  induction cs with
  | nil => rfl
  | cons c cs ih => rw [skeletons, ih, List.map_cons]

theorem flatMap_skeletons {α : Type} {f g : α → List Content} (h : ∀ x, f x = skeletons (g x))
    (xs : List α) : xs.flatMap f = skeletons (xs.flatMap g) := by
  have hf : f = fun x => (g x).map skeleton := by
    funext x
    rw [h, skeletons_eq_map]
  rw [hf, skeletons_eq_map, List.map_flatMap]

theorem countP_skeletons (cs : List Content) :
    (skeletons cs).countP isElement = cs.countP isElement := by
  have helement : isElement ∘ skeleton = isElement := by
    funext c
    cases c <;> rfl
  rw [skeletons_eq_map, List.countP_map, helement]

end Content

namespace Tree

variable (t : Tree) (x : NodeId)

theorem header_of_skeleton {u : Tree} (same : u.skeleton = t.skeleton) : u.header = t.header := by
  change u.skeleton.header = t.skeleton.header
  rw [same]

theorem node?_skeleton : t.skeleton.node? x = (t.node? x).map Node.skeleton :=
  Array.getElem?_map

theorem kind?_skeleton : t.skeleton.kind? x = (t.kind? x).map NodeKind.skeleton := by
  rw [kind?, kind?, node?_skeleton, Option.map_map, Option.map_map]
  rfl

theorem children_skeleton : t.skeleton.children x = t.children x := by
  rw [children_eq, children_eq, node?_skeleton, Option.map_map]
  rfl

theorem contentUpTo_skeleton (fuel : Nat) :
    t.skeleton.contentUpTo fuel x = Content.skeletons (t.contentUpTo fuel x) := by
  induction fuel generalizing x with
  | zero => rfl
  | succ fuel ih =>
    rw [contentUpTo, contentUpTo, kind?_skeleton, children_skeleton]
    cases t.kind? x with
    | none => rfl
    | some kind =>
      cases kind with
      | document => rfl
      | text s => rfl
      | comment s => rfl
      | element e =>
        simp only [Option.map_some, NodeKind.skeleton, Content.flatMap_skeletons ih]
        rfl

theorem content_skeleton : t.skeleton.content = Content.skeletons t.content := by
  have hsize : t.skeleton.size = t.size := Array.size_map ..
  rw [content, content, contentBelow, contentBelow, hsize, children_skeleton]
  exact Content.flatMap_skeletons (fun c => t.contentUpTo_skeleton c t.size) _

end Tree

end PartPatch
