import PartPatch.Registry.Basic
import PartPatch.Token.Piece

/-!
# Bindings

Before a path is evaluated, its symbols are bound to the names that a registry gives them, and its
variables to values. A variable that the registry does not know waits for a token of its name.
-/

namespace PartPatch

set_option autoImplicit false

/-- What a path leaves open. -/
inductive Variable where
  | elementName (symbol : String)
  | elementNamespace (symbol : String)
  | attributeName (symbol : String)
  | attributeNamespace (symbol : String)
  | value (name : String)
deriving DecidableEq, Repr

def Variable.text : Variable → String
  | .elementName symbol => "element name of '" ++ symbol ++ "'"
  | .elementNamespace symbol => "element namespace of '" ++ symbol ++ "'"
  | .attributeName symbol => "attribute name of '" ++ symbol ++ "'"
  | .attributeNamespace symbol => "attribute namespace of '" ++ symbol ++ "'"
  | .value name => "value $" ++ name

/-- A name without its prefix. The empty namespace stands for none. -/
structure BoundName where
  localName : String
  namespaceUri : String
deriving DecidableEq, Repr

namespace BoundName

def ofQName (q : QName) : BoundName :=
  ⟨q.localName, q.namespaceUri.getD ""⟩

/-- Whether a name in a document is the one meant. -/
def Names (n : BoundName) (q : QName) : Prop :=
  q.Matches n.localName (if n.namespaceUri = "" then none else some n.namespaceUri)

instance (n : BoundName) (q : QName) : Decidable (n.Names q) :=
  inferInstanceAs (Decidable (q.Matches _ _))

end BoundName

/-- The bound symbols and variables of a path, each table in ascending order. -/
structure Binding where
  elements : List (String × BoundName)
  attributes : List (String × BoundName)
  values : List (String × String)
  /-- The variables that wait for a token. -/
  pending : List String
deriving DecidableEq, Repr

namespace Binding

structure Error where
  path : String
  unresolved : Variable
deriving DecidableEq, Repr

def Error.message (e : Error) : String :=
  "path '" ++ e.path ++ "': unresolved " ++ e.unresolved.text

def element? (b : Binding) (symbol : String) : Option BoundName :=
  b.elements.lookup symbol

def attribute? (b : Binding) (symbol : String) : Option BoundName :=
  b.attributes.lookup symbol

def value? (b : Binding) (name : String) : Option String :=
  b.values.lookup name

/-- All bound variables with their values, in order. -/
def entries (b : Binding) : List (Variable × String) :=
  b.elements.map (fun (s, n) => (.elementName s, n.localName)) ++
    b.elements.map (fun (s, n) => (.elementNamespace s, n.namespaceUri)) ++
    b.attributes.map (fun (s, n) => (.attributeName s, n.localName)) ++
    b.attributes.map (fun (s, n) => (.attributeNamespace s, n.namespaceUri)) ++
    b.values.map (fun (s, v) => (.value s, v))

/-- Looks up symbols, or names the first that is missing. -/
def bindSymbols (path : String) (missing : String → Variable) (find? : String → Option QName)
    (symbols : List String) : Except Error (List (String × BoundName)) :=
  symbols.mapM fun symbol =>
    match find? symbol with
    | some name => .ok (symbol, .ofQName name)
    | none => .error ⟨path, missing symbol⟩

def bind (r : Registry) (p : NamedPath) : Except Error Binding := do
  let elements ← bindSymbols p.name .elementName r.element? p.path.elementSymbols
  let attributes ← bindSymbols p.name .attributeName r.attribute? p.path.attributeSymbols
  let names := p.path.variableNames
  return {
    elements, attributes
    values := names.filterMap fun name => (r.value? name).map fun value => (name, value)
    pending := names.filter fun name => (r.value? name).isNone }

/-- Binds the pending variables to the tokens of their names. -/
def withTokens (b : Binding) (path : String) (tokens : Token.Resolver) :
    Except Error Binding := do
  let supplied ← b.pending.mapM fun name =>
    match tokens name with
    | some value => .ok (name, value)
    | none => .error ⟨path, .value name⟩
  return { b with
    values := (b.values ++ supplied).mergeSort fun v w => decide (v.1 ≤ w.1)
    pending := [] }

end Binding

end PartPatch
