import Mathlib
import PartPatch.Proofs.Entries
import PartPatch.Proofs.Except
import PartPatch.Proofs.Path.Reader
import PartPatch.Proofs.Registry.Issues

/-!
# What the check of a registry document guarantees

In a registry made from a document without issues every symbol of a path has a name, every
identifier of a fragment has a namespace, and the version can be read.
-/

namespace PartPatch

set_option autoImplicit false

namespace Registry

/-- What is referred to inside the registry is there. -/
structure Sound (r : Registry) : Prop where
  formed : ∀ key p, r.path? key = some p → Step.Formed p.path.steps
  elements : ∀ key p, r.path? key = some p → ∀ symbol ∈ p.path.elementSymbols,
    (r.element? symbol).isSome = true
  attributes : ∀ key p, r.path? key = some p → ∀ symbol ∈ p.path.attributeSymbols,
    (r.attribute? symbol).isSome = true
  spaces : ∀ key f, r.fragment? key = some f → ∀ i ∈ f.identifiers,
    (r.identifierSpace? i.1).isSome = true
  space_name : ∀ name space, r.identifierSpace? name = some space → space.name = name
  version : ∀ text, r.metadata.version = some text →
    ∃ version, Version.read (Text.trimmed text) = .ok version

theorem compile_eq_ok_iff {d : Document} {r : Registry} :
    compile d = .ok r ↔ d.issues = [] ∧ d.resolved = r := by
  unfold compile
  split
  · next h => simp [h]
  · next h =>
    constructor
    · intro h'
      cases h'
    · intro h'
      exact absurd h'.1 h

/-! ## Paths -/

theorem path?_resolved {d : Document} {key : String} {p : NamedPath}
    (h : d.resolved.path? key = some p) :
    ∃ source, d.paths.find? key = some source ∧ Path.read source = .ok p.path := by
  rw [path?, Document.resolved, Entries.find?_filterMap_eq_some_iff] at h
  obtain ⟨source, hs, hp⟩ := h
  refine ⟨source, hs, ?_⟩
  unfold Scope.namedPath? at hp
  split at hp
  · next path hread =>
    cases hp
    exact hread
  · cases hp

/-! ## Fragments -/

section

variable {d : Document}

theorem mem_keys_of_not_badText {text : String} (good : ¬ d.BadText text)
    {template : TemplateText} (h : TemplateText.read text = .ok template) :
    ∀ i ∈ template.identifiers, i.1 ∈ d.identifiers.keys := by
  intro i hi
  by_contra undeclared
  exact good (.identifier h hi undeclared)

mutual

theorem mem_keys_of_node? : ∀ (root : FragmentDefinition) {n : FragmentNode},
    ¬ d.BadFragment root → d.scope.node? root = some n →
    ∀ text ∈ n.texts, ∀ i ∈ text.identifiers, i.1 ∈ d.identifiers.keys
  | .node element attributes text children, n, good, hn => by
    rw [Document.badFragment_iff, Document.badNode_iff] at good
    push Not at good
    obtain ⟨⟨⟨_, hattributes⟩, htext⟩, hchildren⟩ := good
    simp only [Scope.node?, Option.bind_eq_bind, Option.bind_eq_some_iff] at hn
    obtain ⟨name, _, as, has, t, ht, cs, hcs, e⟩ := hn
    cases e
    intro template hmem
    simp only [FragmentNode.texts, List.mem_append, List.mem_map] at hmem
    rcases hmem with (⟨⟨q, _⟩, hq, rfl⟩ | hmem) | hmem
    · obtain ⟨entry, hentry, ha⟩ := mem_of_mapM_eq_some has _ hq
      simp only [Scope.attribute?, Option.bind_eq_bind, Option.bind_eq_some_iff] at ha
      obtain ⟨_, _, _, hread, e⟩ := ha
      cases e
      apply mem_keys_of_not_badText (hattributes entry hentry).2
      exact toOption_eq_some_iff.1 hread
    · cases text with
      | none =>
        cases ht
        cases hmem
      | some source =>
        obtain ⟨_, hread, rfl⟩ := Option.map_eq_some_iff.1 ht
        cases List.mem_singleton.1 hmem
        apply mem_keys_of_not_badText (htext source List.mem_cons_self)
        exact toOption_eq_some_iff.1 hread
    · exact mem_keys_of_nodes? children hchildren hcs template hmem

theorem mem_keys_of_nodes? : ∀ (roots : List FragmentDefinition) {ns : List FragmentNode},
    (∀ root ∈ roots, ¬ d.BadFragment root) → d.scope.nodes? roots = some ns →
    ∀ text ∈ FragmentNode.textsOfAll ns, ∀ i ∈ text.identifiers, i.1 ∈ d.identifiers.keys
  | [], ns, _, hns => by
    cases hns
    simp [FragmentNode.textsOfAll]
  | root :: roots, ns, good, hns => by
    rw [List.forall_mem_cons] at good
    simp only [Scope.nodes?, Option.bind_eq_bind, Option.bind_eq_some_iff] at hns
    obtain ⟨n, hn, ns', hns', e⟩ := hns
    cases e
    intro template hmem
    rw [FragmentNode.textsOfAll] at hmem
    rcases List.mem_append.1 hmem with hmem | hmem
    · exact mem_keys_of_node? root good.1 hn template hmem
    · exact mem_keys_of_nodes? roots good.2 hns' template hmem

end

end

theorem fragment?_resolved {d : Document} {key : String} {f : Fragment}
    (h : d.resolved.fragment? key = some f) :
    ∃ root, d.fragments.find? key = some root ∧ d.scope.node? root = some f.root := by
  rw [fragment?, Document.resolved, Entries.find?_filterMap_eq_some_iff] at h
  obtain ⟨root, hroot, hf⟩ := h
  obtain ⟨n, hn, rfl⟩ := Option.map_eq_some_iff.1 hf
  exact ⟨root, hroot, hn⟩

/-! ## The whole registry -/

theorem identifierSpace?_resolved (d : Document) (name : String) :
    d.resolved.identifierSpace? name =
      (d.identifiers.find? name).map (d.scope.identifierSpace name) :=
  Entries.find?_map d.identifiers d.scope.identifierSpace name

theorem sound_of_compile {d : Document} {r : Registry} (h : compile d = .ok r) : r.Sound := by
  obtain ⟨issues, rfl⟩ := compile_eq_ok_iff.1 h
  have good := issues_eq_nil_iff.1 issues
  have path : ∀ key p, d.resolved.path? key = some p →
      ∃ source, Path.read source = .ok p.path ∧ ¬ d.BadPath source := by
    intro key p hp
    obtain ⟨source, hs, hread⟩ := path?_resolved hp
    refine ⟨source, hread, ?_⟩
    intro bad
    exact good _ _ (.paths (Entries.find?_eq_some_iff.1 hs) (.inr bad))
  constructor
  · intro key p hp
    obtain ⟨source, hread, _⟩ := path key p hp
    exact Path.formed_of_read hread
  · intro key p hp symbol hs
    obtain ⟨source, hread, hgood⟩ := path key p hp
    obtain ⟨axis, within⟩ := Path.mem_elementSymbols_iff.1 hs
    apply Document.contains_elements_iff.2
    by_contra unknown
    exact hgood (.element hread within unknown)
  · intro key p hp symbol hs
    obtain ⟨source, hread, hgood⟩ := path key p hp
    apply Document.contains_attributes_iff.2
    by_contra unknown
    exact hgood (.attribute hread (Path.mem_attributeSymbols_iff.1 hs) unknown)
  · intro key f hf i hi
    obtain ⟨root, hroot, hnode⟩ := fragment?_resolved hf
    obtain ⟨text, htext, hi⟩ := List.mem_flatMap.1 (List.mem_eraseDups.1 hi)
    rw [identifierSpace?_resolved, Option.isSome_map]
    apply Entries.isSome_find?_iff.2
    refine mem_keys_of_node? root ?_ hnode text htext i hi
    intro bad
    exact good _ _ (.fragments (Entries.find?_eq_some_iff.1 hroot) (.inr bad))
  · intro name space hs
    rw [identifierSpace?_resolved] at hs
    obtain ⟨_, _, rfl⟩ := Option.map_eq_some_iff.1 hs
    rfl
  · intro text ht
    cases hread : Version.read (Text.trimmed text) with
    | ok version => exact ⟨version, rfl⟩
    | error e => exact absurd (.version ht hread) (good "meta" "version")

/-! ## Lists of numbered items -/

def itemList : Document where
  metadata := ⟨"", none, none⟩
  namespaces := .empty
  elements := .ofList [("list", .short "list"), ("item", .short "item"), ("gap", .short "gap")]
  attributes := .ofList [("id", .short "id")]
  identifiers := .ofList [("n", ⟨["id"], "", none⟩)]
  values := .empty
  paths := .ofList [("list", "/list"), ("gap", "/list/gap")]
  fragments := .ofList [("item", .node "item" (.ofList [("id", "#\x7bn:x\x7d")]) none [])]
  parts := .empty

def itemNumbers : IdentifierSpace where
  name := "n"
  attributes := [.plain "id"]
  start := ""
  max := UInt32.size - 1

def itemFragment : Fragment where
  name := "item"
  root := .node (.plain "item") [(.plain "id", ⟨[.identifier "n" "x"]⟩)] none []

def items : Registry where
  document := itemList
  elements := .ofList [("list", .plain "list"), ("item", .plain "item"), ("gap", .plain "gap")]
  attributes := .ofList [("id", .plain "id")]
  identifiers := .ofList [("n", itemNumbers)]
  paths := .ofList [("list", ⟨"list", "/list", ⟨[.element .child (.named "list")]⟩⟩),
    ("gap", ⟨"gap", "/list/gap",
      ⟨[.element .child (.named "list"), .element .child (.named "gap")]⟩⟩)]
  fragments := .ofList [("item", itemFragment)]

theorem resolved_itemList : itemList.resolved = items := by
  cbv

theorem compile_itemList : compile itemList = .ok items := by
  rw [compile_eq_ok_iff]
  refine ⟨?_, resolved_itemList⟩
  cbv

end Registry

end PartPatch
