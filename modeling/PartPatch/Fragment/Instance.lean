import PartPatch.Identifier.Allocator
import PartPatch.Registry.Basic
import PartPatch.Token.Piece
import PartPatch.Tree.Plant

/-!
# Instances of fragments

To make an instance of a fragment, its tokens are resolved, its identifiers are given out, and its
texts are rendered with both. An identifier that occurs more than once is the same everywhere in one
instance.
-/

namespace PartPatch

set_option autoImplicit false

namespace Fragment

inductive Error where
  | unresolvedToken (e : Token.Unresolved)
  | exhausted (e : Allocator.Exhausted)
  | unknownSpace (fragment space : String)
  | tree (e : TreeError)
deriving DecidableEq, Repr

def Error.message : Error → String
  | .unresolvedToken e => e.message
  | .exhausted e => e.message
  | .unknownSpace fragment space =>
    "fragment '" ++ fragment ++ "' uses undeclared identifier namespace '" ++ space ++ "'"
  | .tree e => e.message

/-- The values of the placeholders of a fragment. -/
structure Values where
  tokens : List (String × String)
  /-- The identifiers, by namespace and label. -/
  identifiers : List ((String × String) × String)
deriving DecidableEq, Repr

def Values.segment (v : Values) : Segment → String
  | .literal text => text
  | .token name => (v.tokens.lookup name).getD ""
  | .identifier space label => (v.identifiers.lookup (space, label)).getD ""

def Values.render (v : Values) (t : TemplateText) : String :=
  String.join (t.segments.map v.segment)

def resolveTokens (f : Fragment) (tokens : Token.Resolver) :
    Except Error (List (String × String)) :=
  f.tokens.mapM fun name =>
    match tokens name with
    | some value => .ok (name, value)
    | none => .error (.unresolvedToken ⟨name⟩)

/-- Gives out identifiers one after the other. What was given out before a failure stays so. -/
def allocateAll (r : Registry) (fragment : String) (t : Tree) :
    List (String × String) → Allocator →
      Except Error (List ((String × String) × String)) × Allocator
  | [], a => (.ok [], a)
  | (space, label) :: rest, a =>
    match r.identifierSpace? space with
    | none => (.error (.unknownSpace fragment space), a)
    | some definition =>
      match a.allocate definition t with
      | .error e => (.error (.exhausted e), a)
      | .ok (identifier, a) =>
        let (result, a) := allocateAll r fragment t rest a
        (result.map (((space, label), identifier) :: ·), a)

end Fragment

namespace FragmentNode

open Fragment (Values)

mutual

/-- The element with everything below it, its texts rendered. -/
def render (v : Values) : FragmentNode → Content
  | .node name attributes text children =>
    .element ⟨name, attributes.map fun a => ⟨a.1, v.render a.2⟩, []⟩
      (text.toList.map (fun t => .text (v.render t)) ++ renderAll v children)

def renderAll (v : Values) : List FragmentNode → List Content
  | [] => []
  | n :: ns => render v n :: renderAll v ns

end

end FragmentNode

namespace Fragment

/-- Finds the values of all placeholders; tokens come first. -/
def values (f : Fragment) (tokens : Token.Resolver) (t : Tree) (a : Allocator) (r : Registry) :
    Except Error Values × Allocator :=
  match f.resolveTokens tokens with
  | .error e => (.error e, a)
  | .ok resolved =>
    let (result, a) := allocateAll r f.name t f.identifiers a
    (result.map (Values.mk resolved), a)

/-- A detached instance in a tree. -/
structure Instance where
  tree : Tree
  root : NodeId
  values : Values

/-- Plants an instance in the tree, which is left as it is on failure. -/
def instantiate (f : Fragment) (tokens : Token.Resolver) (t : Tree) (a : Allocator)
    (r : Registry) : Except Error Instance × Allocator :=
  match f.values tokens t a r with
  | (.error e, a) => (.error e, a)
  | (.ok v, a) =>
    match t.plant (f.root.render v) with
    | .error e => (.error (.tree e), a)
    | .ok (t, root) => (.ok ⟨t, root, v⟩, a)

/-- The header of documents made from fragments. -/
def documentHeader : Header :=
  ⟨"1.0", some "UTF-8", some "yes"⟩

/-- An instance as the root of a document of its own. -/
def instantiateDocument (f : Fragment) (tokens : Token.Resolver) (r : Registry) :
    Except Error Tree :=
  match (f.instantiate tokens { Tree.empty with header := some documentHeader } .empty r).1 with
  | .error e => .error e
  | .ok made => (made.tree.appendChild Tree.documentId made.root).mapError .tree

end Fragment

end PartPatch
