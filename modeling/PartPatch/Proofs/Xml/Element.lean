import Mathlib.Data.List.Perm.Basic
import PartPatch.Proofs.Xml.Reader
import PartPatch.Proofs.Xml.Tag
import PartPatch.Xml.Printer

/-!
# Tags and their elements

An element that was read has names that are resolved in its scope, none twice. The tag that is
written for such an element is read as the element again.
-/

namespace PartPatch

set_option autoImplicit false

/-- The name of the attribute that makes the declaration. -/
def NamespaceDecl.attributeName (d : NamespaceDecl) : String :=
  match d.qualifier with
  | some qualifier => "xmlns:" ++ qualifier
  | none => "xmlns"

/-- The attributes of the element's tag: its declarations come first. -/
def Element.pairs (e : Element) : List (String × String) :=
  e.declarations.map (fun d => (d.attributeName, d.uri)) ++
    e.attributes.map fun a => (a.name.qualified, a.value)

/-- All names of the element, as they are written, are plain. -/
structure Element.Plain (e : Element) : Prop where
  name : Xml.IsName e.name.qualified.toList
  attributes : ∀ a ∈ e.attributes, Xml.IsName a.name.qualified.toList
  declarations : ∀ d ∈ e.declarations, ∀ qualifier, d.qualifier = some qualifier →
    ∀ c ∈ qualifier.toList, Xml.inName c = true

/-- The names of the element are the ones that its tag reads as in the scope. -/
structure Element.Resolved (scope : Xml.Scope) (e : Element) : Prop where
  name : Xml.splitName e.name.qualified.toList = (e.name.qualifier, e.name.localName)
  namespaceUri : Xml.elementNamespace e.name.qualified e.name.qualifier (e.declarations :: scope) =
    .ok e.name.namespaceUri
  attributes : ∀ a ∈ e.attributes, ∀ value, Xml.declaration? a.name.qualified value = none ∧
    Xml.resolveAttribute e.name.qualified (e.declarations :: scope) a.name.qualified value =
      .ok ⟨a.name, value⟩
  distinct : (e.pairs.map Prod.fst).Nodup

/-- Where the name of an attribute has a prefix, the prefix leads to its namespace. -/
theorem Element.Resolved.bound {scope : Xml.Scope} {e : Element} (h : e.Resolved scope) :
    ∀ a ∈ e.attributes, a.name.qualifier.isSome = true → a.name.namespaceUri.isSome = true ∧
      a.name.namespaceUri = Xml.lookup? a.name.qualifier (e.declarations :: scope) := by
  intro a ha hq
  rcases Xml.resolveAttribute_eq_ok (h.attributes a ha a.value).2 with ⟨hnone, _⟩ | hboth
  · rw [hnone] at hq
    cases hq
  · exact hboth

namespace Xml

variable {scope : Scope} {e : Element}

/-! ## What is read -/

theorem qualified_of_splitName {raw : List Char} {q : QName}
    (h : splitName raw = (q.qualifier, q.localName)) : q.qualified.toList = raw := by
  unfold splitName at h
  unfold QName.qualified
  split at h
  · obtain ⟨hq, hl⟩ := Prod.mk.inj h
    rw [← hq, ← hl]
    exact String.toList_ofList
  · next c localName hdrop =>
    obtain ⟨hq, hl⟩ := Prod.mk.inj h
    have hc : c = ':' := by
      have := List.head?_dropWhile_not (fun c => c != ':') raw
      rw [hdrop] at this
      simpa using this
    rw [← hq, ← hl]
    simp only [String.toList_append, String.toList_ofList]
    rw [List.append_assoc]
    conv =>
      rhs
      rw [← List.takeWhile_append_dropWhile (p := fun c => c != ':') (l := raw), hdrop, hc]
    rfl

theorem declaration?_eq_some_iff {name value : String} {d : NamespaceDecl} :
    declaration? name value = some d ↔ name = d.attributeName ∧ value = d.uri := by
  obtain ⟨qualifier, uri⟩ := d
  unfold declaration? NamespaceDecl.attributeName
  constructor
  · intro h
    split at h
    · next hname =>
      cases h
      exact ⟨hname, rfl⟩
    · split at h
      · next q hafter =>
        cases h
        rw [Text.after?_eq_some_iff] at hafter
        refine ⟨?_, rfl⟩
        rw [← String.toList_inj, hafter]
        simp
      · cases h
  · rintro ⟨rfl, rfl⟩
    cases qualifier with
    | none => exact if_pos rfl
    | some q =>
      have hafter : Text.after? ['x', 'm', 'l', 'n', 's', ':'] ("xmlns:" ++ q).toList =
          some q.toList := by
        rw [Text.after?_eq_some_iff]
        simp
      have hne : "xmlns:" ++ q ≠ "xmlns" := by
        intro heq
        have hlength := congrArg String.length heq
        have hlong : "xmlns:".length = 6 := by decide
        have hshort : "xmlns".length = 5 := by decide
        rw [String.length_append] at hlength
        omega
      simp only [if_neg hne, hafter, String.ofList_toList]

/-- Whether an attribute is a declaration depends on its name only. -/
theorem declaration?_eq_none (name value other : String) (h : declaration? name value = none) :
    declaration? name other = none := by
  rw [Option.eq_none_iff_forall_ne_some] at h ⊢
  intro d hd
  obtain ⟨hname, _⟩ := declaration?_eq_some_iff.1 hd
  exact h ⟨d.qualifier, value⟩ (declaration?_eq_some_iff.2 ⟨hname, rfl⟩)

theorem qualified_of_resolveAttribute {rawName name value : String} {a : Attribute}
    (h : resolveAttribute rawName scope name value = .ok a) :
    a.name.qualified = name ∧ ∀ other, resolveAttribute rawName scope name other =
      .ok ⟨a.name, other⟩ := by
  have hqualified : ∀ q : QName, splitName name.toList = (q.qualifier, q.localName) →
      q.qualified = name := fun q hq => String.toList_inj.1 (qualified_of_splitName hq)
  unfold resolveAttribute at h ⊢
  split at h
  · next localName hsplit =>
    cases h
    exact ⟨hqualified _ hsplit, fun _ => rfl⟩
  · next qualifier localName hsplit =>
    split at h
    · next uri huri =>
      cases h
      exact ⟨hqualified _ hsplit, fun _ => rfl⟩
    · cases h

theorem map_filterMap_eq {α β γ : Type} {f : α → Option β} {g : β → γ} {k : α → γ}
    (h : ∀ x y, f x = some y → g y = k x) (xs : List α) :
    (xs.filterMap f).map g = (xs.filter fun x => (f x).isSome).map k := by
  induction xs with
  | nil => rfl
  | cons x xs ih =>
    cases hx : f x with
    | none =>
      rw [List.filterMap_cons_none hx, List.filter_cons_of_neg (by simp [hx]), ih]
    | some y =>
      rw [List.filterMap_cons_some hx, List.filter_cons_of_pos (by simp [hx]), List.map_cons,
        List.map_cons, ih, h x y hx]

theorem nodup_of_tagAttributes {inside : List Char} {pairs : List (String × String)}
    (h : tagAttributes inside = .ok pairs) : (pairs.map Prod.fst).Nodup := by
  unfold tagAttributes at h
  split at h
  · cases h
  · next attributes _ =>
    split at h
    · next hnodup =>
      have same : pairs.map Prod.fst =
          (attributes.map RawAttribute.name).map String.ofList := by
        have hpairs := (forall₂_of_mapM_eq_ok h).flip
        rw [List.map_map, ← List.forall₂_eq_eq_eq, List.forall₂_map_left_iff,
          List.forall₂_map_right_iff]
        refine hpairs.imp ?_
        intro pair a hpair
        split at hpair
        · cases hpair
          rfl
        · cases hpair
      rw [same]
      exact List.Nodup.map (fun _ _ => String.ofList_inj.1) hnodup
    · cases h

/-- The tag has the declarations and the attributes of the element in some order. -/
theorem distinct_of_readElement {inside : List Char} (h : readElement scope inside = .ok e) :
    (e.pairs.map Prod.fst).Nodup := by
  obtain ⟨pairs, hpairs, hdeclarations, _, _, hattributes⟩ := readElement_eq_ok h
  have hdeclared : e.declarations.map NamespaceDecl.attributeName =
      (pairs.filter fun pair => (declaration? pair.1 pair.2).isSome).map Prod.fst := by
    rw [hdeclarations]
    refine map_filterMap_eq ?_ pairs
    intro pair d hd
    exact (declaration?_eq_some_iff.1 hd).1.symm
  have hplain : e.attributes.map (fun a => a.name.qualified) =
      (pairs.filter fun pair => ! (declaration? pair.1 pair.2).isSome).map Prod.fst := by
    have hsources := (forall₂_of_mapM_eq_ok hattributes).flip
    simp only [Option.not_isSome]
    rw [← List.forall₂_eq_eq_eq, List.forall₂_map_left_iff, List.forall₂_map_right_iff]
    refine hsources.imp ?_
    intro a pair hresolve
    exact (qualified_of_resolveAttribute hresolve).1
  have hsplit : e.pairs.map Prod.fst =
      (pairs.filter (fun pair => (declaration? pair.1 pair.2).isSome) ++
        pairs.filter fun pair => ! (declaration? pair.1 pair.2).isSome).map Prod.fst := by
    rw [List.map_append, ← hdeclared, ← hplain, Element.pairs, List.map_append, List.map_map,
      List.map_map]
    rfl
  rw [hsplit]
  have hperm := (List.filter_append_perm
    (fun pair : String × String => (declaration? pair.1 pair.2).isSome) pairs).map Prod.fst
  exact hperm.nodup_iff.2 (nodup_of_tagAttributes hpairs)

theorem resolved_of_readElement {inside : List Char} (h : readElement scope inside = .ok e) :
    e.Resolved scope ∧ e.name.qualified.toList = tagName inside := by
  obtain ⟨pairs, _, _, hname, huri, hattributes⟩ := readElement_eq_ok h
  have hqualified := qualified_of_splitName hname
  rw [← hqualified, String.ofList_toList] at huri hattributes
  refine ⟨⟨hqualified ▸ hname, huri, ?_, distinct_of_readElement h⟩, hqualified⟩
  intro a ha value
  obtain ⟨⟨name, read⟩, hmem, hresolve⟩ := source_of_mapM_eq_ok hattributes a ha
  obtain ⟨rfl, hother⟩ := qualified_of_resolveAttribute hresolve
  refine ⟨declaration?_eq_none _ read value ?_, hother value⟩
  simpa using (List.mem_filter.1 hmem).2

/-! ## What is written -/

theorem toList_attributeText (a : Attribute) :
    (attributeText a).toList = (rawAttribute (a.name.qualified, a.value)).text := by
  simp [attributeText, RawAttribute.text, rawAttribute]

theorem toList_declarationText (d : NamespaceDecl) :
    (declarationText d).toList = (rawAttribute (d.attributeName, d.uri)).text := by
  obtain ⟨qualifier, uri⟩ := d
  cases qualifier with
  | none => simp [declarationText, NamespaceDecl.attributeName, RawAttribute.text, rawAttribute]
  | some q => simp [declarationText, NamespaceDecl.attributeName, RawAttribute.text, rawAttribute]

theorem toList_tagText (e : Element) :
    (tagText e.declarations e).toList = tagInside e.name.qualified.toList e.pairs := by
  simp only [tagText, tagInside, Element.pairs, String.toList_append, String.toList_join,
    List.map_append, List.flatMap_append, List.map_map, List.flatMap_map, List.append_assoc]
  simp only [Function.comp_def, toList_declarationText, toList_attributeText]

theorem isName_attributeName {d : NamespaceDecl}
    (h : ∀ q, d.qualifier = some q → ∀ c ∈ q.toList, inName c = true) :
    IsName d.attributeName.toList := by
  unfold NamespaceDecl.attributeName
  split
  · next q hq =>
    rw [String.toList_append]
    refine ⟨by simp, ?_⟩
    intro c hc
    have hxmlns : "xmlns:".toList.all inName = true := by decide
    rcases List.mem_append.1 hc with hc | hc
    · exact List.all_eq_true.1 hxmlns c hc
    · exact h q hq c hc
  · exact isName_of_all (by decide) (by decide)

theorem isName_of_mem_pairs (plain : e.Plain) : ∀ pair ∈ e.pairs, IsName pair.1.toList := by
  intro pair hpair
  rcases List.mem_append.1 hpair with hpair | hpair
  · obtain ⟨d, hd, rfl⟩ := List.mem_map.1 hpair
    exact isName_attributeName (plain.declarations d hd)
  · obtain ⟨a, ha, rfl⟩ := List.mem_map.1 hpair
    exact plain.attributes a ha

theorem filterMap_pairs
    (undeclared : ∀ a ∈ e.attributes, declaration? a.name.qualified a.value = none) :
    (e.pairs.filterMap fun pair => declaration? pair.1 pair.2) = e.declarations := by
  have hnone : (e.attributes.map fun a => (a.name.qualified, a.value)).filterMap
      (fun pair => declaration? pair.1 pair.2) = [] := by
    rw [List.filterMap_eq_nil_iff]
    intro pair hpair
    obtain ⟨a, ha, rfl⟩ := List.mem_map.1 hpair
    exact undeclared a ha
  have hsome : (fun d : NamespaceDecl => declaration? d.attributeName d.uri) = some := by
    funext d
    exact declaration?_eq_some_iff.2 ⟨rfl, rfl⟩
  rw [Element.pairs, List.filterMap_append, hnone, List.append_nil, List.filterMap_map]
  change e.declarations.filterMap (fun d => declaration? d.attributeName d.uri) = _
  rw [hsome, List.filterMap_some]

theorem filter_pairs
    (undeclared : ∀ a ∈ e.attributes, declaration? a.name.qualified a.value = none) :
    (e.pairs.filter fun pair => (declaration? pair.1 pair.2).isNone) =
      e.attributes.map fun a => (a.name.qualified, a.value) := by
  rw [Element.pairs, List.filter_append, List.filter_eq_nil_iff.2, List.nil_append,
    List.filter_eq_self]
  · intro pair hpair
    obtain ⟨a, ha, rfl⟩ := List.mem_map.1 hpair
    simp only [undeclared a ha, Option.isNone_none]
  · intro pair hpair
    obtain ⟨d, _, rfl⟩ := List.mem_map.1 hpair
    simp [declaration?_eq_some_iff.2 ⟨rfl, rfl⟩]

theorem readElement_tagText (resolved : e.Resolved scope) (plain : e.Plain) :
    readElement scope (tagText e.declarations e).toList = .ok e := by
  have hmap : (e.attributes.map fun a => (a.name.qualified, a.value)).mapM
      (fun pair => resolveAttribute e.name.qualified (e.declarations :: scope) pair.1 pair.2) =
      .ok e.attributes :=
    mapM_map_eq_ok fun a ha => (resolved.attributes a ha a.value).2
  have undeclared : ∀ a ∈ e.attributes, declaration? a.name.qualified a.value = none :=
    fun a ha => (resolved.attributes a ha a.value).1
  rw [toList_tagText]
  unfold readElement
  rw [tagAttributes_tagInside plain.name (isName_of_mem_pairs plain) resolved.distinct]
  simp only [filterMap_pairs undeclared, filter_pairs undeclared, tagName_tagInside plain.name,
    String.ofList_toList, resolved.name, resolved.namespaceUri]
  exact bind_eq_ok_iff.2 ⟨e.name.namespaceUri, rfl, bind_eq_ok_iff.2 ⟨_, hmap, rfl⟩⟩

end Xml

end PartPatch
