import PartPatch.Tree.Name

/-!
# Document trees

The nodes of a tree stand in an array and are named by their positions in it. Each node knows its
parent and its children in order. Node 0 is the document. Nodes that the document does not reach are
detached: they stay in the array until the tree is compacted, and can be attached again.
-/

namespace PartPatch

set_option autoImplicit false

abbrev NodeId := Nat

structure Attribute where
  name : QName
  value : String
deriving DecidableEq, Repr

/-- Binds a prefix, or the default namespace, to a namespace on an element and all below it. -/
structure NamespaceDecl where
  qualifier : Option String
  uri : String
deriving DecidableEq, Repr

structure Element where
  name : QName
  attributes : List Attribute
  declarations : List NamespaceDecl
deriving DecidableEq, Repr

inductive NodeKind where
  | document
  | element (element : Element)
  | text (text : String)
  | comment (text : String)
deriving DecidableEq, Repr

/-- The header of a part: the values of its XML declaration. -/
structure Header where
  version : String
  encoding : Option String
  standalone : Option String
deriving DecidableEq, Repr

structure Node where
  kind : NodeKind
  parent : Option NodeId
  children : List NodeId
deriving DecidableEq, Repr

structure Tree where
  nodes : Array Node
  header : Option Header
deriving DecidableEq, Repr

namespace Element

/-- The first attribute with this local name and namespace. -/
def attribute? (e : Element) (localName : String) (namespaceUri : Option String) :
    Option Attribute :=
  e.attributes.find? fun a => a.name.Matches localName namespaceUri

end Element

def NodeKind.isElement : NodeKind → Bool
  | .element _ => true
  | _ => false

namespace Tree

/-- The name of the document node. -/
def documentId : NodeId := 0

/-- A tree that holds the document node only. -/
def empty : Tree :=
  ⟨#[⟨.document, none, []⟩], none⟩

/-- A tree whose root is the element. -/
def ofRoot (root : Element) : Tree :=
  ⟨#[⟨.document, none, [1]⟩, ⟨.element root, some documentId, []⟩], none⟩

def size (t : Tree) : Nat :=
  t.nodes.size

def node? (t : Tree) (id : NodeId) : Option Node :=
  t.nodes[id]?

def kind? (t : Tree) (id : NodeId) : Option NodeKind :=
  (t.node? id).map Node.kind

def element? (t : Tree) (id : NodeId) : Option Element :=
  match t.kind? id with
  | some (.element e) => some e
  | _ => none

def parent? (t : Tree) (id : NodeId) : Option NodeId :=
  (t.node? id).bind Node.parent

def children (t : Tree) (id : NodeId) : List NodeId :=
  match t.node? id with
  | some node => node.children
  | none => []

def isElement (t : Tree) (id : NodeId) : Bool :=
  (t.element? id).isSome

def childElements (t : Tree) (id : NodeId) : List NodeId :=
  (t.children id).filter t.isElement

/-- The first element below the document. -/
def root? (t : Tree) : Option NodeId :=
  (t.childElements documentId).head?

/-- The node, its parent, the parent of that, and so on; at most `fuel` nodes. -/
def lineageUpTo (t : Tree) : Nat → NodeId → List NodeId
  | 0, _ => []
  | fuel + 1, id =>
    id :: match t.parent? id with
      | some parent => t.lineageUpTo fuel parent
      | none => []

/-- The node and its ancestors. A chain of parents in a forest is no longer than the array. -/
def lineage (t : Tree) (id : NodeId) : List NodeId :=
  t.lineageUpTo t.size id

/-- Whether the document is above the node. -/
def isAttached (t : Tree) (id : NodeId) : Bool :=
  (t.lineage id).contains documentId

end Tree

end PartPatch
