import PartPatch.Proofs.Path.Within
import PartPatch.Proofs.Registry.Compile
import PartPatch.Proofs.Selection

/-!
# Bindings of checked registries

A registry without issues binds all symbols of its paths, and after the tokens were supplied all
variables are bound, too. All that can be missing is a token for a variable that the registry gives
no value.
-/

namespace PartPatch

set_option autoImplicit false

namespace Binding

variable {r : Registry} {p : NamedPath} {b b' : Binding} {key : String}

theorem bindSymbols_eq_ok (path : String) (missing : String → Variable)
    {find? : String → Option QName} {symbols : List String}
    (h : ∀ symbol ∈ symbols, (find? symbol).isSome = true) :
    ∃ names, bindSymbols path missing find? symbols = .ok names ∧
      ∀ symbol ∈ symbols, ∃ name, names.lookup symbol = some name := by
  cases hb : bindSymbols path missing find? symbols with
  | error e =>
    obtain ⟨symbol, hs, he⟩ := exists_of_mapM_eq_error hb
    obtain ⟨name, hname⟩ := Option.isSome_iff_exists.1 (h symbol hs)
    rw [hname] at he
    cases he
  | ok names =>
    refine ⟨names, rfl, ?_⟩
    intro symbol hs
    obtain ⟨entry, hentry, he⟩ := mem_of_mapM_eq_ok hb symbol hs
    obtain ⟨name, hname⟩ := Option.isSome_iff_exists.1 (h symbol hs)
    rw [hname] at he
    cases he
    exact Option.isSome_iff_exists.1
      (Entries.lookup_isSome_iff.2 (List.mem_map_of_mem hentry))

theorem bind_eq_ok (sound : r.Sound) (hp : r.path? key = some p) :
    ∃ b, bind r p = .ok b ∧
      (∀ symbol ∈ p.path.elementSymbols, ∃ name, b.element? symbol = some name) ∧
      (∀ symbol ∈ p.path.attributeSymbols, ∃ name, b.attribute? symbol = some name) ∧
      (∀ name ∈ p.path.variableNames, name ∈ b.values.map Prod.fst ∨ name ∈ b.pending) ∧
      ∀ name ∈ b.pending, r.value? name = none := by
  obtain ⟨elements, he, helements⟩ :=
    bindSymbols_eq_ok p.name .elementName (sound.elements key p hp)
  obtain ⟨attributes, ha, hattributes⟩ :=
    bindSymbols_eq_ok p.name .attributeName (sound.attributes key p hp)
  have hb : bind r p = .ok {
      elements, attributes
      values := p.path.variableNames.filterMap fun name =>
        (r.value? name).map fun value => (name, value)
      pending := p.path.variableNames.filter fun name => (r.value? name).isNone } := by
    rw [bind, he, bind_eq_ok_iff]
    exact ⟨elements, rfl, by rw [ha]; rfl⟩
  refine ⟨_, hb, helements, hattributes, ?_, ?_⟩
  · intro name hname
    cases hv : r.value? name with
    | none => exact Or.inr (List.mem_filter.2 ⟨hname, by rw [hv]; rfl⟩)
    | some value =>
      refine Or.inl (List.mem_map.2 ⟨(name, value), ?_, rfl⟩)
      exact List.mem_filterMap.2 ⟨name, hname, by rw [hv]; rfl⟩
  · intro name hname
    exact Option.isNone_iff_eq_none.1 (List.mem_filter.1 hname).2

theorem withTokens_error {path : String} {tokens : Token.Resolver} {e : Binding.Error}
    (h : b.withTokens path tokens = .error e) :
    ∃ name ∈ b.pending, e.unresolved = .value name ∧ tokens name = none := by
  simp only [withTokens, bind_eq_error_iff] at h
  rcases h with h | ⟨_, _, h⟩
  · obtain ⟨name, hname, he⟩ := exists_of_mapM_eq_error h
    split at he
    · cases he
    · next hnone =>
      cases he
      exact ⟨name, hname, rfl, hnone⟩
  · cases h

theorem withTokens_ok {path : String} {tokens : Token.Resolver}
    (h : b.withTokens path tokens = .ok b') :
    b'.elements = b.elements ∧ b'.attributes = b.attributes ∧
      ∀ name, name ∈ b.values.map Prod.fst ∨ name ∈ b.pending →
        ∃ value, b'.value? name = some value := by
  simp only [withTokens, bind_eq_ok_iff] at h
  obtain ⟨supplied, hs, h⟩ := h
  cases h
  refine ⟨rfl, rfl, ?_⟩
  intro name hname
  apply Option.isSome_iff_exists.1
  rw [value?, Entries.lookup_isSome_iff, List.mem_map]
  simp only [List.mem_mergeSort, List.mem_append]
  rcases hname with hname | hname
  · obtain ⟨entry, hentry, rfl⟩ := List.mem_map.1 hname
    exact ⟨entry, Or.inl hentry, rfl⟩
  · obtain ⟨entry, hentry, he⟩ := mem_of_mapM_eq_ok hs name hname
    split at he
    · cases he
      exact ⟨_, Or.inr hentry, rfl⟩
    · cases he

theorem bindsAll_of_lookups
    (elements : ∀ symbol ∈ p.path.elementSymbols, ∃ name, b.element? symbol = some name)
    (attributes : ∀ symbol ∈ p.path.attributeSymbols, ∃ name, b.attribute? symbol = some name)
    (values : ∀ name ∈ p.path.variableNames, ∃ value, b.value? name = some value) :
    b.BindsAll p.path.steps := by
  intro s hs
  cases s with
  | element axis test =>
    cases test with
    | named symbol =>
      exact elements symbol (mem_sortedDistinct.2 (List.mem_filterMap.2 ⟨_, hs, rfl⟩))
    | any => trivial
  | «attribute» symbol =>
    exact attributes symbol (mem_sortedDistinct.2 (List.mem_filterMap.2 ⟨_, hs, rfl⟩))
  | predicate path equals =>
    cases equals with
    | none => trivial
    | some name =>
      exact values name (mem_sortedDistinct.2 (List.mem_filterMap.2 ⟨_, hs, rfl⟩))

/-- The binding of a path of a checked registry, supplied with tokens, leaves nothing open. -/
theorem bindsAll_of_withTokens (sound : r.Sound) (hp : r.path? key = some p)
    (hb : bind r p = .ok b) {path : String} {tokens : Token.Resolver}
    (ht : b.withTokens path tokens = .ok b') : b'.BindsAll p.path.steps := by
  obtain ⟨b₀, hb₀, helements, hattributes, hvalues, _⟩ := bind_eq_ok sound hp
  cases hb₀.symm.trans hb
  obtain ⟨he, ha, hv⟩ := withTokens_ok ht
  apply bindsAll_of_lookups
  · intro symbol hsymbol
    rw [element?, he]
    exact helements symbol hsymbol
  · intro symbol hsymbol
    rw [attribute?, ha]
    exact hattributes symbol hsymbol
  · intro name hname
    exact hv name (hvalues name hname)

end Binding

end PartPatch
