import PartPatch.Proofs.Entries
import PartPatch.Proofs.Except
import PartPatch.Proofs.Path.Within
import PartPatch.Registry.Compile

/-!
# The issues of a registry document are its bad entries

An entry is bad if its key has the wrong shape or something it says cannot be resolved. Checking a
document finds issues in each of its bad entries and in no others, whatever else is wrong with the
document.
-/

namespace PartPatch

set_option autoImplicit false

namespace Registry

/-- The node is the root of the fragment or, at any depth, below it. -/
inductive FragmentDefinition.NodeOf (node : FragmentDefinition) : FragmentDefinition → Prop where
  | root : NodeOf node node
  | inside {element : String} {attributes : Entries String} {text : Option String}
    {children : List FragmentDefinition} {child : FragmentDefinition} (h : child ∈ children)
    (nodeOf : NodeOf node child) : NodeOf node (.node element attributes text children)

structure NameDefinition.Resolvable (namespaces : Entries String) (d : NameDefinition) :
    Prop where
  nonempty : d.parts.2 ≠ ""
  plain : ':' ∉ d.parts.2.toList
  declared : ∀ qualifier, d.parts.1 = some qualifier → qualifier ∈ namespaces.keys

namespace Document

variable (d : Document)

def KnownElement (symbol : String) : Prop :=
  ∃ name, (symbol, name) ∈ d.elements.toList ∧ name.Resolvable d.namespaces

def KnownAttribute (symbol : String) : Prop :=
  ∃ name, (symbol, name) ∈ d.attributes.toList ∧ name.Resolvable d.namespaces

inductive BadText : String → Prop where
  | malformed {text : String} {e : TemplateText.Error} (h : TemplateText.read text = .error e) :
    BadText text
  | identifier {text space label : String} {template : TemplateText}
    (h : TemplateText.read text = .ok template) (hi : (space, label) ∈ template.identifiers)
    (undeclared : space ∉ d.identifiers.keys) : BadText text

inductive BadNode : FragmentDefinition → Prop where
  | element {symbol : String} {attributes : Entries String} {text : Option String}
    {children : List FragmentDefinition} (unknown : ¬ d.KnownElement symbol) :
    BadNode (.node symbol attributes text children)
  | attribute {element symbol value : String} {attributes : Entries String} {text : Option String}
    {children : List FragmentDefinition} (h : (symbol, value) ∈ attributes.toList)
    (bad : ¬ d.KnownAttribute symbol ∨ d.BadText value) :
    BadNode (.node element attributes text children)
  | text {element text : String} {attributes : Entries String}
    {children : List FragmentDefinition} (bad : d.BadText text) :
    BadNode (.node element attributes (some text) children)

/-- Something is wrong with a node of the fragment. -/
def BadFragment (root : FragmentDefinition) : Prop :=
  ∃ node : FragmentDefinition, node.NodeOf root ∧ d.BadNode node

inductive BadPath (source : String) : Prop where
  | malformed {e : Path.Error} (h : Path.read source = .error e)
  | element {path : Path} {axis : Axis} {symbol : String} (h : Path.read source = .ok path)
    (within : (Step.element axis (.named symbol)).Within path.steps)
    (unknown : ¬ d.KnownElement symbol)
  | attribute {path : Path} {symbol : String} (h : Path.read source = .ok path)
    (within : (Step.attribute symbol).Within path.steps) (unknown : ¬ d.KnownAttribute symbol)

/-- The entries in which something is wrong, by table and key. -/
inductive Bad : String → String → Prop where
  | namespaces {qualifier uri : String} (h : (qualifier, uri) ∈ d.namespaces.toList)
    (bad : qualifier = "" ∨ ':' ∈ qualifier.toList ∨ qualifier = "xmlns") :
    Bad "namespaces" qualifier
  | version {text : String} {e : Version.Error} (h : d.metadata.version = some text)
    (bad : Version.read (Text.trimmed text) = .error e) : Bad "meta" "version"
  | elements {symbol : String} {name : NameDefinition} (h : (symbol, name) ∈ d.elements.toList)
    (bad : Symbol.isKey symbol = false ∨ ¬ d.KnownElement symbol) : Bad "elements" symbol
  | attributes {symbol : String} {name : NameDefinition}
    (h : (symbol, name) ∈ d.attributes.toList)
    (bad : Symbol.isKey symbol = false ∨ ¬ d.KnownAttribute symbol) : Bad "attributes" symbol
  | identifiers {name : String} {space : IdentifierDefinition}
    (h : (name, space) ∈ d.identifiers.toList)
    (bad : Symbol.isKey name = false ∨ ∃ symbol ∈ space.attributes, ¬ d.KnownAttribute symbol) :
    Bad "identifiers" name
  | values {name value : String} (h : (name, value) ∈ d.values.toList)
    (bad : Symbol.isKey name = false) : Bad "values" name
  | paths {name source : String} (h : (name, source) ∈ d.paths.toList)
    (bad : Symbol.isKey name = false ∨ d.BadPath source) : Bad "paths" name
  | fragments {name : String} {root : FragmentDefinition} (h : (name, root) ∈ d.fragments.toList)
    (bad : Symbol.isKey name = false ∨ d.BadFragment root) : Bad "fragments" name
  | parts {name : String} {part : PartSpec} (h : (name, part) ∈ d.parts.toList)
    (bad : Symbol.isKey name = false ∨ part.name.toList.head? ≠ some '/' ∨
      Text.trimmed part.contentType = "") : Bad "parts" name

end Document

/-! ## Faults of one entry -/

theorem keyFaults_ne_nil_iff {name : String} : keyFaults name ≠ [] ↔ Symbol.isKey name = false := by
  unfold keyFaults
  cases Symbol.isKey name with
  | false => simp
  | true => simp

theorem namespaceFaults_ne_nil_iff {qualifier : String} :
    namespaceFaults qualifier ≠ [] ↔
      qualifier = "" ∨ ':' ∈ qualifier.toList ∨ qualifier = "xmlns" := by
  have h : isPrefix qualifier = true ↔
      ¬ (qualifier = "" ∨ ':' ∈ qualifier.toList ∨ qualifier = "xmlns") := by
    simp only [isPrefix, Bool.and_eq_true, decide_eq_true_eq, Bool.not_eq_true',
      List.contains_eq_mem, decide_eq_false_iff_not, ne_eq, not_or, and_assoc]
  rw [← Decidable.not_iff_not, ← h, namespaceFaults]
  cases isPrefix qualifier with
  | false => simp
  | true => simp

theorem versionFaults_ne_nil_iff {version : Option String} :
    versionFaults version ≠ [] ↔
      ∃ text e, version = some text ∧ Version.read (Text.trimmed text) = .error e := by
  cases version with
  | none => simp [versionFaults]
  | some text =>
    cases h : Version.read (Text.trimmed text) with
    | ok v => simp [versionFaults, h]
    | error e => simp [versionFaults, h]

theorem append_ne_nil_iff {α : Type} {as bs : List α} : as ++ bs ≠ [] ↔ as ≠ [] ∨ bs ≠ [] := by
  rw [Ne, List.append_eq_nil_iff, Decidable.not_and_iff_not_or_not]

theorem flatMap_ne_nil_iff {α β : Type} {as : List α} {f : α → List β} :
    as.flatMap f ≠ [] ↔ ∃ a ∈ as, f a ≠ [] := by
  rw [Ne, List.flatMap_eq_nil_iff]
  simp

theorem symbolFaults_ne_nil_iff {kind : SymbolKind} {known : Entries QName}
    {symbols : List String} :
    symbolFaults kind known symbols ≠ [] ↔ ∃ symbol ∈ symbols, ¬ known.contains symbol = true := by
  rw [symbolFaults, Ne, List.map_eq_nil_iff, List.filter_eq_nil_iff]
  simp

/-! ## Names -/

theorem exists_resolve_eq_ok_iff {namespaces : Entries String} {d : NameDefinition} :
    (∃ name, d.resolve namespaces = .ok name) ↔ d.Resolvable namespaces := by
  have fields : d.Resolvable namespaces ↔ (d.parts.2 ≠ "" ∧ ':' ∉ d.parts.2.toList) ∧
      ∀ qualifier, d.parts.1 = some qualifier → qualifier ∈ namespaces.keys :=
    ⟨fun h => ⟨⟨h.nonempty, h.plain⟩, h.declared⟩, fun h => ⟨h.1.1, h.1.2, h.2⟩⟩
  rw [fields]
  unfold NameDefinition.resolve
  obtain ⟨qualifier, name⟩ := d.parts
  dsimp only
  split
  · next h =>
    rw [List.contains_iff_mem] at h
    rcases h with h | h
    · simp [h]
    · simp [h]
  · next h =>
    rw [not_or, List.contains_iff_mem] at h
    cases qualifier with
    | none => simp [h]
    | some qualifier =>
      simp only [Option.some.injEq, forall_eq', ← Entries.isSome_find?_iff]
      cases namespaces.find? qualifier with
      | none => simp
      | some uri => simp [h]

theorem contains_resolvedNames_iff {namespaces : Entries String} {names : Entries NameDefinition}
    {symbol : String} :
    (resolvedNames namespaces names).contains symbol = true ↔
      ∃ name, (symbol, name) ∈ names.toList ∧ name.Resolvable namespaces := by
  have resolves : ∀ q, (resolvedNames namespaces names).find? symbol = some q ↔
      ∃ name, (symbol, name) ∈ names.toList ∧ name.resolve namespaces = .ok q := by
    intro q
    rw [resolvedNames, Entries.find?_filterMap_eq_some_iff]
    simp only [toOption_eq_some_iff, Entries.find?_eq_some_iff]
  rw [Entries.contains, Option.isSome_iff_exists]
  simp only [resolves, ← exists_resolve_eq_ok_iff]
  constructor
  · rintro ⟨q, name, h, hq⟩
    exact ⟨name, h, q, hq⟩
  · rintro ⟨name, h, q, hq⟩
    exact ⟨q, name, h, hq⟩

theorem nameFaults_ne_nil_iff {namespaces : Entries String} {names : Entries NameDefinition}
    {symbol : String} {d : NameDefinition} (h : (symbol, d) ∈ names.toList) :
    nameFaults namespaces symbol d ≠ [] ↔ Symbol.isKey symbol = false ∨
      ¬ ∃ name, (symbol, name) ∈ names.toList ∧ name.Resolvable namespaces := by
  have only : (∃ name, (symbol, name) ∈ names.toList ∧ name.Resolvable namespaces) ↔
      d.Resolvable namespaces := by
    constructor
    · rintro ⟨name, hname, hr⟩
      have hd := Entries.find?_eq_some_iff.2 h
      rw [Entries.find?_eq_some_iff.2 hname] at hd
      rwa [← Option.some.inj hd]
    · intro hr
      exact ⟨d, h, hr⟩
  rw [nameFaults, append_ne_nil_iff, keyFaults_ne_nil_iff, only, ← exists_resolve_eq_ok_iff]
  cases d.resolve namespaces with
  | ok q => simp
  | error fault => simp

namespace Document

variable {d : Document} {symbol : String}

theorem contains_elements_iff : d.scope.elements.contains symbol = true ↔ d.KnownElement symbol :=
  contains_resolvedNames_iff

theorem contains_attributes_iff :
    d.scope.attributes.contains symbol = true ↔ d.KnownAttribute symbol :=
  contains_resolvedNames_iff

theorem identifierFaults_ne_nil_iff {name : String} {space : IdentifierDefinition} :
    d.scope.identifierFaults name space ≠ [] ↔
      Symbol.isKey name = false ∨ ∃ symbol ∈ space.attributes, ¬ d.KnownAttribute symbol := by
  rw [Scope.identifierFaults, append_ne_nil_iff, keyFaults_ne_nil_iff, symbolFaults_ne_nil_iff]
  simp only [contains_attributes_iff]

theorem pathFaults_ne_nil_iff {name source : String} :
    d.scope.pathFaults name source ≠ [] ↔ Symbol.isKey name = false ∨ d.BadPath source := by
  rw [Scope.pathFaults, append_ne_nil_iff, keyFaults_ne_nil_iff]
  apply or_congr_right
  cases h : Path.read source with
  | error e => simp [BadPath.malformed h]
  | ok path =>
    dsimp only
    rw [append_ne_nil_iff, symbolFaults_ne_nil_iff, symbolFaults_ne_nil_iff]
    simp only [Path.mem_elementSymbols_iff, Path.mem_attributeSymbols_iff, contains_elements_iff,
      contains_attributes_iff]
    constructor
    · intro bad
      rcases bad with ⟨symbol, ⟨axis, within⟩, unknown⟩ | ⟨symbol, within, unknown⟩
      · exact .element h within unknown
      · exact .attribute h within unknown
    · intro bad
      cases bad with
      | malformed h' =>
        rw [h] at h'
        cases h'
      | element h' within unknown =>
        cases Except.ok.inj (h.symm.trans h')
        exact .inl ⟨_, ⟨_, within⟩, unknown⟩
      | «attribute» h' within unknown =>
        cases Except.ok.inj (h.symm.trans h')
        exact .inr ⟨_, within, unknown⟩

/-! ## Fragments -/

theorem textFaults_ne_nil_iff {text : String} :
    d.scope.textFaults text ≠ [] ↔ d.BadText text := by
  rw [Scope.textFaults]
  cases h : TemplateText.read text with
  | error e => simp [BadText.malformed h]
  | ok template =>
    dsimp only
    rw [Ne, List.map_eq_nil_iff, List.filter_eq_nil_iff]
    constructor
    · intro some_undeclared
      simp only [List.mem_map, decide_eq_true_eq, not_forall, not_not] at some_undeclared
      obtain ⟨space, ⟨⟨_, label⟩, hi, rfl⟩, undeclared⟩ := some_undeclared
      exact .identifier h hi undeclared
    · intro bad declared
      cases bad with
      | malformed h' =>
        rw [h] at h'
        cases h'
      | identifier h' hi undeclared =>
        cases Except.ok.inj (h.symm.trans h')
        exact declared _ (List.mem_map_of_mem hi) (decide_eq_true undeclared)

theorem attributeFaults_ne_nil_iff {value : String} :
    d.scope.attributeFaults symbol value ≠ [] ↔ ¬ d.KnownAttribute symbol ∨ d.BadText value := by
  rw [Scope.attributeFaults, ← contains_attributes_iff]
  split
  · next known => rw [textFaults_ne_nil_iff, or_iff_right (not_not_intro known)]
  · next unknown => simp [unknown]

/-- The faults that a node has itself, whatever its children are. -/
theorem badNode_iff {element : String} {attributes : Entries String} {text : Option String}
    {children : List FragmentDefinition} :
    d.BadNode (.node element attributes text children) ↔
      (¬ d.KnownElement element ∨ ∃ entry ∈ attributes.toList,
        ¬ d.KnownAttribute entry.1 ∨ d.BadText entry.2) ∨ ∃ value ∈ text.toList, d.BadText value := by
  constructor
  · intro bad
    cases bad with
    | element unknown => exact .inl (.inl unknown)
    | «attribute» h bad => exact .inl (.inr ⟨_, h, bad⟩)
    | text bad => exact .inr ⟨_, List.mem_cons_self, bad⟩
  · intro bad
    rcases bad with (unknown | ⟨entry, h, bad⟩) | ⟨value, h, bad⟩
    · exact .element unknown
    · exact .attribute h bad
    · rw [Option.mem_toList.1 h]
      exact .text bad

theorem badFragment_iff {element : String} {attributes : Entries String} {text : Option String}
    {children : List FragmentDefinition} :
    d.BadFragment (.node element attributes text children) ↔
      d.BadNode (.node element attributes text children) ∨
        ∃ child ∈ children, d.BadFragment child := by
  constructor
  · intro h
    obtain ⟨n, nodeOf, bad⟩ := h
    cases nodeOf with
    | root => exact .inl bad
    | inside h nodeOf => exact .inr ⟨_, h, n, nodeOf, bad⟩
  · intro h
    rcases h with bad | ⟨child, h, n, nodeOf, bad⟩
    · exact ⟨_, .root, bad⟩
    · exact ⟨n, .inside h nodeOf, bad⟩

mutual

theorem nodeFaults_ne_nil_iff : ∀ root : FragmentDefinition,
    d.scope.nodeFaults root ≠ [] ↔ d.BadFragment root
  | .node element attributes text children => by
    rw [badFragment_iff, badNode_iff, ← nodesFaults_ne_nil_iff children, Scope.nodeFaults,
      append_ne_nil_iff, append_ne_nil_iff, append_ne_nil_iff, symbolFaults_ne_nil_iff,
      flatMap_ne_nil_iff, flatMap_ne_nil_iff]
    simp only [List.mem_singleton, exists_eq_left, contains_elements_iff,
      attributeFaults_ne_nil_iff, textFaults_ne_nil_iff]

theorem nodesFaults_ne_nil_iff : ∀ roots : List FragmentDefinition,
    d.scope.nodesFaults roots ≠ [] ↔ ∃ root ∈ roots, d.BadFragment root
  | [] => by simp [Scope.nodesFaults]
  | root :: roots => by
    rw [Scope.nodesFaults, append_ne_nil_iff, nodeFaults_ne_nil_iff root,
      nodesFaults_ne_nil_iff roots, List.exists_mem_cons_iff]

end

theorem fragmentFaults_ne_nil_iff {name : String} {root : FragmentDefinition} :
    d.scope.fragmentFaults name root ≠ [] ↔ Symbol.isKey name = false ∨ d.BadFragment root := by
  rw [Scope.fragmentFaults, append_ne_nil_iff, keyFaults_ne_nil_iff, nodeFaults_ne_nil_iff]

end Document

theorem partFaults_ne_nil_iff {name : String} {part : PartSpec} :
    partFaults name part ≠ [] ↔ Symbol.isKey name = false ∨
      part.name.toList.head? ≠ some '/' ∨ Text.trimmed part.contentType = "" := by
  rw [partFaults, append_ne_nil_iff, append_ne_nil_iff, keyFaults_ne_nil_iff, or_assoc]
  simp

/-! ## All tables -/

theorem mem_tableIssues_iff {α : Type} {table key : String} {faults : String → α → List Fault}
    {entries : Entries α} :
    key ∈ (tableIssues table faults entries).map Issue.key ↔ ∃ name value,
      (name, value) ∈ entries.toList ∧ faults name value ≠ [] ∧ key = table ++ "." ++ name := by
  simp only [tableIssues, List.mem_map, List.mem_flatMap]
  constructor
  · rintro ⟨issue, ⟨⟨name, value⟩, h, fault, hfault, rfl⟩, rfl⟩
    exact ⟨name, value, h, List.ne_nil_of_mem hfault, rfl⟩
  · rintro ⟨name, value, h, faulty, rfl⟩
    obtain ⟨fault, hfault⟩ := List.exists_mem_of_ne_nil _ faulty
    exact ⟨_, ⟨_, h, fault, hfault, rfl⟩, rfl⟩

theorem mem_versionIssues_iff {version : Option String} {key : String} :
    key ∈ ((versionFaults version).map (Issue.mk "meta.version")).map Issue.key ↔
      (∃ text e, version = some text ∧ Version.read (Text.trimmed text) = .error e) ∧
        key = "meta" ++ "." ++ "version" := by
  rw [← versionFaults_ne_nil_iff, List.map_map]
  simp [Function.comp_def, List.map_const', List.mem_replicate]

theorem mem_issues_iff {d : Document} {key : String} :
    key ∈ d.issues.map Issue.key ↔ ∃ table name, d.Bad table name ∧ key = table ++ "." ++ name := by
  simp only [Document.issues, List.map_append, List.mem_append, mem_versionIssues_iff,
    mem_tableIssues_iff, namespaceFaults_ne_nil_iff, Document.identifierFaults_ne_nil_iff,
    keyFaults_ne_nil_iff, Document.pathFaults_ne_nil_iff, Document.fragmentFaults_ne_nil_iff,
    partFaults_ne_nil_iff, or_assoc]
  -- one case for each table, in their order
  constructor
  · intro h
    rcases h with ⟨q, uri, h, bad, e⟩ | ⟨⟨text, err, h, bad⟩, e⟩ | ⟨s, name, h, bad, e⟩ |
      ⟨s, name, h, bad, e⟩ | ⟨name, space, h, bad, e⟩ | ⟨name, value, h, bad, e⟩ |
      ⟨name, source, h, bad, e⟩ | ⟨name, root, h, bad, e⟩ | ⟨name, part, h, bad, e⟩
    · exact ⟨_, _, .namespaces h bad, e⟩
    · exact ⟨_, _, .version h bad, e⟩
    · exact ⟨_, _, .elements h ((nameFaults_ne_nil_iff h).1 bad), e⟩
    · exact ⟨_, _, .attributes h ((nameFaults_ne_nil_iff h).1 bad), e⟩
    · exact ⟨_, _, .identifiers h bad, e⟩
    · exact ⟨_, _, .values h bad, e⟩
    · exact ⟨_, _, .paths h bad, e⟩
    · exact ⟨_, _, .fragments h bad, e⟩
    · exact ⟨_, _, .parts h bad, e⟩
  · rintro ⟨table, name, bad, e⟩
    cases bad with
    | namespaces h bad =>
      left
      exact ⟨_, _, h, bad, e⟩
    | version h bad =>
      iterate 1 right
      left
      exact ⟨⟨_, _, h, bad⟩, e⟩
    | elements h bad =>
      iterate 2 right
      left
      exact ⟨_, _, h, (nameFaults_ne_nil_iff h).2 bad, e⟩
    | attributes h bad =>
      iterate 3 right
      left
      exact ⟨_, _, h, (nameFaults_ne_nil_iff h).2 bad, e⟩
    | identifiers h bad =>
      iterate 4 right
      left
      exact ⟨_, _, h, bad, e⟩
    | values h bad =>
      iterate 5 right
      left
      exact ⟨_, _, h, bad, e⟩
    | paths h bad =>
      iterate 6 right
      left
      exact ⟨_, _, h, bad, e⟩
    | fragments h bad =>
      iterate 7 right
      left
      exact ⟨_, _, h, bad, e⟩
    | parts h bad =>
      iterate 8 right
      exact ⟨_, _, h, bad, e⟩

theorem issues_eq_nil_iff {d : Document} : d.issues = [] ↔ ∀ table name, ¬ d.Bad table name := by
  constructor
  · intro h table name bad
    have hkey := mem_issues_iff.2 ⟨table, name, bad, rfl⟩
    rw [h] at hkey
    cases hkey
  · intro good
    apply List.eq_nil_iff_forall_not_mem.2
    intro issue h
    obtain ⟨table, name, bad, _⟩ := mem_issues_iff.1 (List.mem_map_of_mem h)
    exact good table name bad

end Registry

end PartPatch
