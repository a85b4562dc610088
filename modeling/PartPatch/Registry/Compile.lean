import PartPatch.Registry.Basic
import PartPatch.Registry.Issue
import PartPatch.Similarity

/-!
# Resolving the symbols of a registry document

Every entry of a document is checked on its own against the names that could be resolved, and all
faults are reported, in the order of the tables. A document without faults becomes a registry.
-/

namespace PartPatch.Registry

set_option autoImplicit false

/-- Whether the text can be the prefix of a namespace. -/
def isPrefix (text : String) : Bool :=
  text ≠ "" && !text.toList.contains ':' && text ≠ "xmlns"

namespace NameDefinition

/-- The prefix, if there is one, and the local name. -/
def parts : NameDefinition → Option String × String
  | .full name qualifier => (qualifier, name)
  | .short text =>
    match Text.cut? [':'] text.toList with
    | some (qualifier, name) => (some (String.ofList qualifier), String.ofList name)
    | none => (none, text)

/-- The name with its prefix looked up among the namespaces. -/
def resolve (namespaces : Entries String) (d : NameDefinition) : Except Fault QName :=
  let (qualifier, name) := d.parts
  if name = "" ∨ name.toList.contains ':' then .error (.invalidLocalName name)
  else match qualifier with
    | none => .ok (.plain name)
    | some qualifier =>
      match namespaces.find? qualifier with
      | some uri => .ok ⟨some qualifier, name, some uri⟩
      | none => .error (.undefinedNamespace qualifier)

end NameDefinition

/-- The names that symbols resolve to; those that do not resolve are left out. -/
def resolvedNames (namespaces : Entries String) (names : Entries NameDefinition) :
    Entries QName :=
  names.filterMap fun _ d => (d.resolve namespaces).toOption

def keyFaults (name : String) : List Fault :=
  if Symbol.isKey name then [] else [.invalidKey name]

def namespaceFaults (qualifier : String) : List Fault :=
  if isPrefix qualifier then [] else [.invalidPrefix]

def versionFaults : Option String → List Fault
  | none => []
  | some version =>
    match Version.read (Text.trimmed version) with
    | .ok _ => []
    | .error e => [.invalidVersion version e]

def nameFaults (namespaces : Entries String) (symbol : String) (d : NameDefinition) : List Fault :=
  keyFaults symbol ++
    match d.resolve namespaces with
    | .ok _ => []
    | .error fault => [fault]

/-- The symbol is undefined; a similar one among those known is suggested. -/
def undefinedSymbol (kind : SymbolKind) (known : Entries QName) (symbol : String) : Fault :=
  .undefinedSymbol kind symbol (Similarity.closest? symbol known.keys)

/-- The faults of symbols that should be known. -/
def symbolFaults (kind : SymbolKind) (known : Entries QName) (symbols : List String) :
    List Fault :=
  (symbols.filter fun symbol => !known.contains symbol).map (undefinedSymbol kind known)

/-- The names that symbols in a document may resolve to. -/
structure Scope where
  elements : Entries QName
  attributes : Entries QName
  /-- The names of the identifier namespaces. -/
  identifiers : List String

def Document.scope (d : Document) : Scope where
  elements := resolvedNames d.namespaces d.elements
  attributes := resolvedNames d.namespaces d.attributes
  identifiers := d.identifiers.keys

namespace Scope

def identifierFaults (scope : Scope) (name : String) (d : IdentifierDefinition) : List Fault :=
  keyFaults name ++ symbolFaults .attribute scope.attributes d.attributes

def pathFaults (scope : Scope) (name source : String) : List Fault :=
  keyFaults name ++
    match Path.read source with
    | .error e => [.malformedPath source e]
    | .ok path =>
      symbolFaults .element scope.elements path.elementSymbols ++
        symbolFaults .attribute scope.attributes path.attributeSymbols

def textFaults (scope : Scope) (text : String) : List Fault :=
  match TemplateText.read text with
  | .error e => [.malformedPlaceholder e]
  | .ok template =>
    ((template.identifiers.map Prod.fst).filter fun name => name ∉ scope.identifiers).map
      .undefinedIdentifierSpace

/-- The faults of an attribute; the value of an unknown one is not looked at. -/
def attributeFaults (scope : Scope) (symbol value : String) : List Fault :=
  if scope.attributes.contains symbol then scope.textFaults value
  else [undefinedSymbol .attribute scope.attributes symbol]

mutual

def nodeFaults (scope : Scope) : FragmentDefinition → List Fault
  | .node element attributes text children =>
    symbolFaults .element scope.elements [element] ++
      attributes.toList.flatMap (fun entry => scope.attributeFaults entry.1 entry.2) ++
      text.toList.flatMap scope.textFaults ++ scope.nodesFaults children

def nodesFaults (scope : Scope) : List FragmentDefinition → List Fault
  | [] => []
  | d :: ds => scope.nodeFaults d ++ scope.nodesFaults ds

end

def fragmentFaults (scope : Scope) (name : String) (d : FragmentDefinition) : List Fault :=
  keyFaults name ++ scope.nodeFaults d

end Scope

def partFaults (name : String) (part : PartSpec) : List Fault :=
  keyFaults name ++
    (if part.name.toList.head? = some '/' then [] else [.relativePartName part.name]) ++
    (if Text.trimmed part.contentType = "" then [.emptyContentType] else [])

/-- The faults of all entries of a table. -/
def tableIssues {α : Type} (table : String) (faults : String → α → List Fault)
    (entries : Entries α) : List Issue :=
  entries.toList.flatMap fun entry =>
    (faults entry.1 entry.2).map fun fault => ⟨table ++ "." ++ entry.1, fault⟩

def Document.issues (d : Document) : List Issue :=
  tableIssues "namespaces" (fun qualifier _ => namespaceFaults qualifier) d.namespaces ++
    (versionFaults d.metadata.version).map (fun fault => ⟨"meta.version", fault⟩) ++
    tableIssues "elements" (nameFaults d.namespaces) d.elements ++
    tableIssues "attributes" (nameFaults d.namespaces) d.attributes ++
    tableIssues "identifiers" d.scope.identifierFaults d.identifiers ++
    tableIssues "values" (fun name _ => keyFaults name) d.values ++
    tableIssues "paths" d.scope.pathFaults d.paths ++
    tableIssues "fragments" d.scope.fragmentFaults d.fragments ++
    tableIssues "parts" partFaults d.parts

/-- The greatest number of an identifier namespace that sets no limit of its own. -/
def defaultMaximum : Nat := UInt32.size - 1

namespace Scope

def identifierSpace (scope : Scope) (name : String) (d : IdentifierDefinition) :
    IdentifierSpace where
  name
  attributes := d.attributes.filterMap scope.attributes.find?
  start := d.start
  max := d.max.getD defaultMaximum

def namedPath? (name source : String) : Option NamedPath :=
  match Path.read source with
  | .ok path => some ⟨name, source, path⟩
  | .error _ => none

def attribute? (scope : Scope) (symbol value : String) : Option (QName × TemplateText) := do
  return (← scope.attributes.find? symbol, ← (TemplateText.read value).toOption)

/-- The template text, if there is a text; nothing if it is malformed. -/
def text? : Option String → Option (Option TemplateText)
  | none => some none
  | some text => (TemplateText.read text).toOption.map some

mutual

def node? (scope : Scope) : FragmentDefinition → Option FragmentNode
  | .node element attributes text children => do
    return .node (← scope.elements.find? element)
      (← attributes.toList.mapM fun entry => scope.attribute? entry.1 entry.2)
      (← text? text) (← scope.nodes? children)

def nodes? (scope : Scope) : List FragmentDefinition → Option (List FragmentNode)
  | [] => some []
  | d :: ds => do return (← scope.node? d) :: (← scope.nodes? ds)

end

end Scope

/-- The registry that the document describes, entries that do not resolve left out. -/
def Document.resolved (d : Document) : Registry where
  document := d
  elements := d.scope.elements
  attributes := d.scope.attributes
  identifiers := d.identifiers.map d.scope.identifierSpace
  paths := d.paths.filterMap Scope.namedPath?
  fragments := d.fragments.filterMap fun name root => (d.scope.node? root).map (Fragment.mk name)

/-- The registry that a document without issues describes. -/
def compile (d : Document) : Except (List Issue) Registry :=
  match d.issues with
  | [] => .ok d.resolved
  | issues => .error issues

end PartPatch.Registry
