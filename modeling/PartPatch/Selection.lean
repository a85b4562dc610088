import PartPatch.Binding.Basic
import PartPatch.Tree.Content
import PartPatch.Tree.Order

/-!
# Selection

A bound path selects elements or attributes of a tree. It starts at the document node and goes from
step to step with the nodes reached so far, without repetition and in document order.
-/

namespace PartPatch

set_option autoImplicit false

/-- A selected node: an element, or an attribute by its place in an element. -/
inductive NodeRef where
  | element (id : NodeId)
  | attribute (owner : NodeId) (index : Nat)
deriving DecidableEq, Repr

namespace NodeRef

/-- The element, or the one that has the attribute. -/
def elementId : NodeRef → NodeId
  | .element id => id
  | .attribute owner _ => owner

def element? : NodeRef → Option NodeId
  | .element id => some id
  | .attribute _ _ => none

end NodeRef

namespace Tree

/-- The attribute at a place in an element. -/
def attributeAt? (t : Tree) (owner : NodeId) (index : Nat) : Option Attribute :=
  (t.element? owner).bind fun e => e.attributes[index]?

/-- The text of an element, or the value of an attribute. -/
def stringValue (t : Tree) : NodeRef → String
  | .element id => t.text id
  | .attribute owner index =>
    match t.attributeAt? owner index with
    | some a => a.value
    | none => ""

end Tree

namespace Selection

/-- A variable of the path that has no value. -/
structure Unbound where
  path : String
  missing : Variable
deriving DecidableEq, Repr

def Unbound.message (e : Unbound) : String :=
  "path '" ++ e.path ++ "': variable not bound: " ++ e.missing.text

/-- What a path is evaluated on: a tree, the order of its attached nodes, and a binding. -/
structure Context where
  tree : Tree
  order : List NodeId
  binding : Binding

namespace Context

def along (c : Context) : Axis → NodeId → List NodeId
  | .child, id => c.tree.childElements id
  | .descendant, id => c.tree.descendantElements id

/-- The name that elements should have, if any one in particular. -/
def wanted (c : Context) : NameTest → Except Variable (Option BoundName)
  | .any => .ok none
  | .named symbol =>
    match c.binding.element? symbol with
    | some name => .ok (some name)
    | none => .error (.elementName symbol)

def admits (c : Context) (wanted : Option BoundName) (id : NodeId) : Bool :=
  match c.tree.element? id, wanted with
  | some e, some name => decide (name.Names e.name)
  | some _, none => true
  | none, _ => false

/-- The elements along the axis from any of the nodes, in document order. -/
def elementStep (c : Context) (axis : Axis) (test : NameTest) (nodes : List NodeRef) :
    Except Variable (List NodeRef) := do
  let wanted ← c.wanted test
  let reached := (nodes.filterMap NodeRef.element?).flatMap fun id =>
    (c.along axis id).filter (c.admits wanted)
  return (c.order.filter reached.contains).map .element

/-- The first attribute of the name in each of the elements. -/
def attributeStep (c : Context) (symbol : String) (nodes : List NodeRef) :
    Except Variable (List NodeRef) :=
  match c.binding.attribute? symbol with
  | none => .error (.attributeName symbol)
  | some name =>
    .ok ((nodes.filterMap NodeRef.element?).filterMap fun id => do
      let e ← c.tree.element? id
      let index ← e.attributes.findIdx? fun a => name.Names a.name
      return .attribute id index)

/-- Whether a selection satisfies the comparison of a predicate. -/
def satisfied (c : Context) (equals : Option String) (selected : List NodeRef) :
    Except Variable Bool :=
  match equals with
  | none => .ok !selected.isEmpty
  | some name =>
    match c.binding.value? name with
    | none => .error (.value name)
    | some expected => .ok (selected.any fun node => c.tree.stringValue node == expected)

mutual

/-- The nodes that a step leads to. -/
def step (c : Context) : Step → List NodeRef → Except Variable (List NodeRef)
  | .element axis test, nodes => c.elementStep axis test nodes
  | .attribute symbol, nodes => c.attributeStep symbol nodes
  | .predicate path equals, nodes =>
    nodes.filterM fun node => do c.satisfied equals (← c.walk path [node])

/-- The nodes that the steps lead to. Where nothing is left the remaining steps are not looked
at. -/
def walk (c : Context) : List Step → List NodeRef → Except Variable (List NodeRef)
  | [], nodes => .ok nodes
  | s :: path, nodes =>
    if nodes.isEmpty then .ok []
    else
      match c.step s nodes with
      | .ok reached => c.walk path reached
      | .error v => .error v

end

end Context

end Selection

/-- The nodes that the path selects in the tree. -/
def NamedPath.select (p : NamedPath) (t : Tree) (b : Binding) :
    Except Selection.Unbound (List NodeRef) :=
  (Selection.Context.walk ⟨t, t.attachedNodes, b⟩ p.path.steps
    [.element Tree.documentId]).mapError fun v => ⟨p.name, v⟩

end PartPatch
