import PartPatch.Tree.Basic

/-!
# Changing a tree

Every operation yields a new tree or the reason why it does not apply. A node is attached only if it
has no parent yet and would not stand below itself, so the nodes remain a forest.
-/

namespace PartPatch

set_option autoImplicit false

inductive TreeError where
  | notAnElement (id : NodeId)
  | alreadyAttached (id : NodeId)
  | noParent (id : NodeId)
  | cycle (parent child : NodeId)
  | multipleRoots
  | documentNode
deriving DecidableEq, Repr

def nodeText (id : NodeId) : String :=
  "#" ++ toString id

def TreeError.message : TreeError → String
  | .notAnElement id => "node " ++ nodeText id ++ " is not an element"
  | .alreadyAttached id => "node " ++ nodeText id ++ " is already attached to a parent"
  | .noParent id => "node " ++ nodeText id ++ " has no parent"
  | .cycle parent child =>
    "attaching " ++ nodeText child ++ " under " ++ nodeText parent ++ " would create a cycle"
  | .multipleRoots => "a document can only hold one root element"
  | .documentNode => "the document node cannot be moved"

namespace Tree

/-- Adds a detached node. -/
def push (t : Tree) (kind : NodeKind) : Tree × NodeId :=
  ({ t with nodes := t.nodes.push ⟨kind, none, []⟩ }, t.size)

def modifyNode (t : Tree) (id : NodeId) (f : Node → Node) : Tree :=
  { t with nodes := t.nodes.modify id f }

def modifyElement (t : Tree) (id : NodeId) (f : Element → Element) : Tree :=
  t.modifyNode id fun node =>
    match node.kind with
    | .element e => { node with kind := .element (f e) }
    | _ => node

/-- Makes `child` the child of `parent` at the position, whatever either of them is. -/
def link (t : Tree) (parent : NodeId) (position : Nat) (child : NodeId) : Tree :=
  (t.modifyNode parent fun node =>
    { node with children := node.children.insertIdx (min position node.children.length) child })
    |>.modifyNode child fun node => { node with parent := some parent }

def insertAt (t : Tree) (parent : NodeId) (position : Nat) (child : NodeId) :
    Except TreeError Tree :=
  if child = documentId then .error .documentNode
  else if (t.parent? child).isSome then .error (.alreadyAttached child)
  else match t.kind? parent with
    | some .document =>
      if t.isElement child && t.root?.isSome then .error .multipleRoots
      else if child ∈ t.lineage parent then .error (.cycle parent child)
      else .ok (t.link parent position child)
    | some (.element _) =>
      if child ∈ t.lineage parent then .error (.cycle parent child)
      else .ok (t.link parent position child)
    | _ => .error (.notAnElement parent)

def appendChild (t : Tree) (parent child : NodeId) : Except TreeError Tree :=
  t.insertAt parent (t.children parent).length child

def prependChild (t : Tree) (parent child : NodeId) : Except TreeError Tree :=
  t.insertAt parent 0 child

/-- The parent of the node and the node's place among its children. -/
def place? (t : Tree) (id : NodeId) : Option (NodeId × Nat) :=
  match t.parent? id with
  | none => none
  | some parent => ((t.children parent).idxOf? id).map fun position => (parent, position)

def insertBefore (t : Tree) (reference child : NodeId) : Except TreeError Tree :=
  match t.place? reference with
  | none => .error (.noParent reference)
  | some (parent, position) => t.insertAt parent position child

def insertAfter (t : Tree) (reference child : NodeId) : Except TreeError Tree :=
  match t.place? reference with
  | none => .error (.noParent reference)
  | some (parent, position) => t.insertAt parent (position + 1) child

/-- Takes the node from its parent; what is below it stays there. -/
def detach (t : Tree) (id : NodeId) : Tree :=
  match t.parent? id with
  | none => t
  | some parent =>
    (t.modifyNode id fun node => { node with parent := none }).modifyNode parent fun node =>
      { node with children := node.children.filter (· ≠ id) }

/-- Takes all children from the node. -/
def clear (t : Tree) (id : NodeId) : Tree :=
  (t.children id).foldl (fun t child => t.modifyNode child fun node => { node with parent := none })
    (t.modifyNode id fun node => { node with children := [] })

/-- Makes one text the whole content of the element; an empty text leaves it without children. -/
def setText (t : Tree) (id : NodeId) (text : String) : Except TreeError Tree :=
  if t.isElement id then
    let cleared := t.clear id
    if text = "" then .ok cleared
    else
      let (extended, child) := cleared.push (.text text)
      extended.appendChild id child
  else .error (.notAnElement id)

end Tree

/-- Gives the first attribute that means the same as `name` the value, or adds it at the end. -/
def setValue (name : QName) (value : String) : List Attribute → List Attribute
  | [] => [⟨name, value⟩]
  | a :: rest =>
    if a.name.Matches name.localName name.namespaceUri then { a with value } :: rest
    else a :: setValue name value rest

namespace Tree

def setAttribute (t : Tree) (id : NodeId) (name : QName) (value : String) :
    Except TreeError Tree :=
  if t.isElement id then
    .ok (t.modifyElement id fun e => { e with attributes := setValue name value e.attributes })
  else .error (.notAnElement id)

/-- Removes all attributes with this local name and namespace; whether there were any. -/
def removeAttribute (t : Tree) (id : NodeId) (localName : String) (namespaceUri : Option String) :
    Tree × Bool :=
  match t.element? id with
  | none => (t, false)
  | some e =>
    (t.modifyElement id fun e => { e with
      attributes := e.attributes.filter fun a => ¬ a.name.Matches localName namespaceUri },
     e.attributes.any fun a => a.name.Matches localName namespaceUri)

def rename (t : Tree) (id : NodeId) (name : QName) : Tree :=
  t.modifyElement id fun e => { e with name }

end Tree

end PartPatch
