import PartPatch.Proofs.Registry.Compile

/-!
# What compiling a registry document reports

The issues that are reported name the bad entries of the document and nothing else. Without bad
entries the document becomes a registry, in which every entry has its place.
-/

namespace PartPatch

set_option autoImplicit false

namespace Registry

/-- Every entry of the document has its place in the registry. -/
structure Covers (r : Registry) (d : Document) : Prop where
  document : r.document = d
  elements : r.elements.keys = d.elements.keys
  attributes : r.attributes.keys = d.attributes.keys
  identifiers : r.identifiers.keys = d.identifiers.keys
  paths : r.paths.keys = d.paths.keys
  fragments : r.fragments.keys = d.fragments.keys

namespace Document

variable {d : Document}

theorem exists_read_of_not_badText {text : String} (good : ¬ d.BadText text) :
    ∃ template, TemplateText.read text = .ok template := by
  cases h : TemplateText.read text with
  | ok template => exact ⟨template, rfl⟩
  | error e => exact absurd (.malformed h) good

theorem exists_attribute? {symbol value : String} (known : d.KnownAttribute symbol)
    (good : ¬ d.BadText value) : ∃ a, d.scope.attribute? symbol value = some a := by
  obtain ⟨name, hname⟩ := Option.isSome_iff_exists.1 (contains_attributes_iff.2 known)
  obtain ⟨template, hread⟩ := exists_read_of_not_badText good
  refine ⟨(name, template), ?_⟩
  rw [Scope.attribute?, hname, hread]
  rfl

theorem exists_text? {text : Option String} (good : ∀ value ∈ text.toList, ¬ d.BadText value) :
    ∃ template, Scope.text? text = some template := by
  cases text with
  | none => exact ⟨none, rfl⟩
  | some value =>
    obtain ⟨template, hread⟩ := exists_read_of_not_badText (good value List.mem_cons_self)
    refine ⟨some template, ?_⟩
    rw [Scope.text?, hread]
    rfl

mutual

theorem exists_node? : ∀ root : FragmentDefinition, ¬ d.BadFragment root →
    ∃ n, d.scope.node? root = some n
  | .node element attributes text children, good => by
    rw [badFragment_iff, badNode_iff] at good
    push Not at good
    obtain ⟨⟨⟨known, hattributes⟩, htext⟩, hchildren⟩ := good
    obtain ⟨name, hname⟩ := Option.isSome_iff_exists.1 (contains_elements_iff.2 known)
    have each : ∀ entry ∈ attributes.toList, ∃ a, d.scope.attribute? entry.1 entry.2 = some a :=
      fun entry h => exists_attribute? (hattributes entry h).1 (hattributes entry h).2
    obtain ⟨as, has⟩ := exists_mapM_eq_some each
    obtain ⟨t, ht⟩ := exists_text? htext
    obtain ⟨cs, hcs⟩ := exists_nodes? children hchildren
    refine ⟨.node name as t cs, ?_⟩
    rw [Scope.node?, hname, has, ht, hcs]
    rfl

theorem exists_nodes? : ∀ roots : List FragmentDefinition,
    (∀ root ∈ roots, ¬ d.BadFragment root) → ∃ ns, d.scope.nodes? roots = some ns
  | [], _ => ⟨[], rfl⟩
  | root :: roots, good => by
    rw [List.forall_mem_cons] at good
    obtain ⟨n, hn⟩ := exists_node? root good.1
    obtain ⟨ns, hns⟩ := exists_nodes? roots good.2
    refine ⟨n :: ns, ?_⟩
    rw [Scope.nodes?, hn, hns]
    rfl

end

theorem keys_resolvedNames {names : Entries NameDefinition} (h : ∀ symbol name,
    (symbol, name) ∈ names.toList → ∃ name, (symbol, name) ∈ names.toList ∧
      name.Resolvable d.namespaces) :
    (resolvedNames d.namespaces names).keys = names.keys := by
  apply Entries.keys_filterMap
  intro entry hentry
  obtain ⟨name, hname, resolvable⟩ := h _ _ hentry
  obtain ⟨q, hq⟩ := exists_resolve_eq_ok_iff.2 resolvable
  refine ⟨q, toOption_eq_some_iff.2 ?_⟩
  have same := Entries.find?_eq_some_iff.2 hname
  rw [Entries.find?_eq_some_iff.2 hentry] at same
  rw [Option.some.inj same]
  exact hq

theorem covers_resolved (good : ∀ table name, ¬ d.Bad table name) : d.resolved.Covers d where
  document := rfl
  elements := by
    apply keys_resolvedNames
    intro symbol name h
    by_contra unknown
    exact good _ _ (.elements h (.inr unknown))
  attributes := by
    apply keys_resolvedNames
    intro symbol name h
    by_contra unknown
    exact good _ _ (.attributes h (.inr unknown))
  identifiers := Entries.keys_filterMap fun _ _ => ⟨_, rfl⟩
  paths := by
    apply Entries.keys_filterMap
    rintro ⟨name, source⟩ h
    cases hread : Path.read source with
    | ok path => exact ⟨⟨name, source, path⟩, by rw [Scope.namedPath?, hread]⟩
    | error e => exact absurd (.paths h (.inr (.malformed hread))) (good "paths" name)
  fragments := by
    apply Entries.keys_filterMap
    rintro ⟨name, root⟩ h
    obtain ⟨n, hn⟩ := exists_node? root fun bad => good _ _ (.fragments h (.inr bad))
    exact ⟨⟨name, n⟩, by rw [hn]; rfl⟩

end Document

/-- The issues of a document name its bad entries and nothing else, so that a document without bad
entries becomes a registry, and one that lacks none of its entries. -/
theorem compile_reports_bad (d : Document) :
    (∀ key, (∃ issues, compile d = .error issues ∧ key ∈ issues.map Issue.key) ↔
      ∃ table name, d.Bad table name ∧ key = table ++ "." ++ name) ∧
    ((∃ r, compile d = .ok r) ↔ ∀ table name, ¬ d.Bad table name) ∧
    ∀ r, compile d = .ok r → r.Covers d := by
  have reported : ∀ key, (∃ issues, compile d = .error issues ∧ key ∈ issues.map Issue.key) ↔
      key ∈ d.issues.map Issue.key := by
    intro key
    cases h : d.issues with
    | nil => simp [compile, h]
    | cons issue issues => simp [compile, h, eq_comm]
  refine ⟨fun key => (reported key).trans mem_issues_iff, ?_, ?_⟩
  · simp only [compile_eq_ok_iff, exists_and_left, exists_eq', and_true, issues_eq_nil_iff]
  · intro r h
    obtain ⟨issues, rfl⟩ := compile_eq_ok_iff.1 h
    exact Document.covers_resolved (issues_eq_nil_iff.1 issues)

/-- Lacks the element that one of its paths leads to. -/
def listWithoutGap : Document :=
  { itemList with elements := .ofList [("list", .short "list"), ("item", .short "item")] }

theorem bad_listWithoutGap : listWithoutGap.Bad "paths" "gap" := by
  have hread : Path.read "/list/gap" =
      .ok ⟨[.element .child (.named "list"), .element .child (.named "gap")]⟩ := by cbv
  have unknown : ¬ listWithoutGap.KnownElement "gap" := by
    rw [← Document.contains_elements_iff]
    cbv
    simp
  have hpath : listWithoutGap.paths.find? "gap" = some "/list/gap" := by cbv
  apply Document.Bad.paths (Entries.find?_eq_some_iff.1 hpath)
  exact .inr (.element hread (.here (List.mem_cons_of_mem _ List.mem_cons_self)) unknown)

theorem compile_reports_bad_itemList :
    (compile itemList = .ok items ∧ (∀ table name, ¬ itemList.Bad table name) ∧
      items.Covers itemList) ∧
    listWithoutGap.Bad "paths" "gap" ∧ ∃ issues, compile listWithoutGap = .error issues ∧
      "paths.gap" ∈ issues.map Issue.key := by
  obtain ⟨_, compiles, covers⟩ := compile_reports_bad itemList
  obtain ⟨reports, _⟩ := compile_reports_bad listWithoutGap
  have reported := (reports "paths.gap").2 ⟨"paths", "gap", bad_listWithoutGap, rfl⟩
  exact ⟨⟨compile_itemList, compiles.1 ⟨items, compile_itemList⟩, covers items compile_itemList⟩,
    bad_listWithoutGap, reported⟩

end Registry

end PartPatch
