import PartPatch.Proofs.Registry.Names
import PartPatch.Proofs.Tree.Listing
import PartPatch.Proofs.Xml.Legible

/-!
# Elements without declarations of their own

An element that declares nothing is written with the declarations that its names need. If the names
are plain, if the tag tells them apart, and if every prefix can be declared for its namespace, then
what is written is read as the element with these declarations.
-/

namespace PartPatch

set_option autoImplicit false

/-- The name has the namespace that the registry gives to its prefix, and can be taken apart as it
is written. -/
structure QName.Proper (namespaces : Entries String) (q : QName) : Prop where
  within : q.Within namespaces
  split : Xml.splitName q.qualified.toList = (q.qualifier, q.localName)
  qualifier : q.qualifier ≠ some "xmlns"

/-- All names are proper. -/
def Xml.ProperNames (namespaces : Entries String) (name : QName) (attributes : List QName) : Prop :=
  ∀ q ∈ name :: attributes, q.Proper namespaces

/-- The element with the declarations that are written on it. -/
def Element.written (scope : Xml.Scope) (e : Element) : Element :=
  { e with declarations := Xml.writtenDeclarations scope e }

namespace Xml

/-- The names of an element and of its attributes hold no character that ends a name. -/
structure PlainNames (name : QName) (attributes : List QName) : Prop where
  name : IsName name.qualified.toList
  attributes : ∀ q ∈ attributes, IsName q.qualified.toList

/-- The tag is not taken for other markup, none of its attributes for a declaration, and no two of
them for the same. -/
structure DistinctNames (name : QName) (attributes : List QName) : Prop where
  opens : ∀ c ∈ name.qualified.toList.head?, c ≠ '!' ∧ c ≠ '?'
  undeclared : .plain "xmlns" ∉ attributes
  nodup : (attributes.map QName.qualified).Nodup

/-- Besides, every prefix can be declared: none stands for the empty namespace, and `xml` stands for
its own one. -/
structure ReadableNames (name : QName) (attributes : List QName) : Prop extends
    DistinctNames name attributes where
  bound : ∀ q ∈ name :: attributes, q.namespaceUri ≠ some ""
  xml : ∀ q ∈ name :: attributes, q.qualifier = some "xml" → q.namespaceUri = some xmlNamespace

variable {namespaces : Entries String} {q : QName} {e : Element} {scope : Scope}
  {d : NamespaceDecl}

/-! ## Names -/

theorem splitName_plain {localName : List Char} (h : ':' ∉ localName) :
    splitName localName = (none, String.ofList localName) := by
  have hdrop : localName.dropWhile (· != ':') = [] := by
    rw [List.dropWhile_eq_nil_iff]
    intro c hc
    have hne : c ≠ ':' := by
      rintro rfl
      exact h hc
    simpa using hne
  unfold splitName
  rw [hdrop]

theorem splitName_append {qualifier : List Char} (h : ':' ∉ qualifier) (localName : List Char) :
    splitName (qualifier ++ ':' :: localName) =
      (some (String.ofList qualifier), String.ofList localName) := by
  have hall : ∀ c ∈ qualifier, (c != ':') = true := by
    intro c hc
    have hne : c ≠ ':' := by
      rintro rfl
      exact h hc
    simpa using hne
  have hdrop : (qualifier ++ ':' :: localName).dropWhile (· != ':') = ':' :: localName := by
    rw [List.dropWhile_append_of_pos hall]
    rfl
  have htake : (qualifier ++ ':' :: localName).takeWhile (· != ':') = qualifier := by
    rw [List.takeWhile_append_of_pos hall]
    simp
  unfold splitName
  rw [hdrop, htake]

theorem splitName_attributeName (d : NamespaceDecl) :
    splitName d.attributeName.toList = match d.qualifier with
      | some qualifier => (some "xmlns", qualifier)
      | none => (none, "xmlns") := by
  unfold NamespaceDecl.attributeName
  cases d.qualifier with
  | none => decide
  | some qualifier =>
    have hxmlns : "xmlns:".toList = "xmlns".toList ++ [':'] := by decide
    have hcolon : ':' ∉ "xmlns".toList := by decide
    have hsplit := splitName_append hcolon qualifier.toList
    rw [String.ofList_toList, String.ofList_toList] at hsplit
    simp only [String.toList_append, hxmlns, List.append_assoc, List.singleton_append]
    exact hsplit

theorem attributeName_injective {d d' : NamespaceDecl} (h : d.attributeName = d'.attributeName) :
    d.qualifier = d'.qualifier := by
  have hsplit := splitName_attributeName d
  rw [h, splitName_attributeName] at hsplit
  cases hd : d.qualifier <;> cases hd' : d'.qualifier <;> simp_all

/-- Only the name `xmlns` itself makes a declaration. -/
theorem declaration?_of_proper (proper : q.Proper namespaces) (h : q ≠ .plain "xmlns")
    (value : String) : declaration? q.qualified value = none := by
  rw [Option.eq_none_iff_forall_ne_some]
  intro d hd
  obtain ⟨hname, _⟩ := declaration?_eq_some_iff.1 hd
  have hsplit := proper.split
  rw [hname, splitName_attributeName] at hsplit
  obtain ⟨within, _, hqualifier⟩ := proper
  cases hd : d.qualifier with
  | none =>
    rw [hd, Prod.mk.injEq] at hsplit
    cases within with
    | plain localName => exact h (congrArg QName.plain hsplit.2.symm)
    | prefixed localName hfind => cases hsplit.1
  | some qualifier =>
    rw [hd, Prod.mk.injEq] at hsplit
    exact hqualifier hsplit.1.symm

/-! ## What is written on an element -/

section Element

variable (nothing : e.declarations = [])
  (proper : ProperNames namespaces e.name (e.attributes.map Attribute.name))

theorem mem_of_mem_names (h : q ∈ e.names) : q ∈ e.name :: e.attributes.map Attribute.name := by
  rw [Element.names, List.mem_cons, List.mem_filter] at h
  rw [List.mem_cons]
  exact h.imp_right And.left

theorem mem_names (h : q ∈ e.name :: e.attributes.map Attribute.name)
    (hq : q.qualifier.isSome = true) : q ∈ e.names := by
  rw [Element.names, List.mem_cons, List.mem_filter]
  exact (List.mem_cons.1 h).imp_right fun h => ⟨h, hq⟩

include proper

theorem qualified_of_proper : e.Qualified := by
  intro a ha hq
  obtain ⟨within, _, _⟩ := proper a.name (List.mem_cons_of_mem _ (List.mem_map_of_mem ha))
  cases hname : a.name with
  | mk qualifier localName namespaceUri =>
    rw [hname] at within hq
    cases within with
    | plain => cases hq
    | prefixed => rfl

theorem undeclared_of_distinct
    (distinct : DistinctNames e.name (e.attributes.map Attribute.name)) :
    ∀ a ∈ e.attributes, ∀ value, declaration? a.name.qualified value = none := by
  intro a ha value
  have hmem := List.mem_map_of_mem (f := Attribute.name) ha
  refine declaration?_of_proper (proper _ (List.mem_cons_of_mem _ hmem)) ?_ value
  intro hname
  exact distinct.undeclared (hname ▸ hmem)

theorem means_written (readable : ReadableNames e.name (e.attributes.map Attribute.name)) :
    ∀ q ∈ e.names, Means (writtenDeclarations scope e :: scope) q := by
  refine (faithful_iff scope (qualified_of_proper proper)).2 ⟨?_, ?_⟩
  · intro q hq r hr same
    obtain ⟨hq, _, _⟩ := proper q (mem_of_mem_names hq)
    obtain ⟨hr, _, _⟩ := proper r (mem_of_mem_names hr)
    cases hq with
    | plain =>
      cases hr with
      | plain => rfl
      | prefixed => cases same
    | prefixed localName hfind =>
      cases hr with
      | plain => cases same
      | prefixed localName' hfind' =>
        cases same
        exact Option.some.inj (hfind.symm.trans hfind')
  · intro q hq hxml
    rw [readable.xml q (mem_of_mem_names hq) hxml]
    rfl

/-- A prefix is bound to what it stands for, unless that is the empty namespace. -/
theorem lookup?_written (readable : ReadableNames e.name (e.attributes.map Attribute.name))
    (hq : q ∈ e.names) {uri : String} (huri : q.namespaceUri = some uri) :
    lookup? q.qualifier (writtenDeclarations scope e :: scope) = some uri := by
  have means : Means (writtenDeclarations scope e :: scope) q :=
    means_written proper readable q hq
  have hne : uri ≠ "" := by
    rintro rfl
    exact readable.bound q (mem_of_mem_names hq) huri
  rw [Means, huri, Option.getD_some] at means
  cases hlookup : lookup? q.qualifier (writtenDeclarations scope e :: scope) with
  | none =>
    rw [hlookup] at means
    exact absurd means.symm hne
  | some uri' =>
    rw [hlookup] at means
    exact congrArg some means

/-- The namespace of the element is found again. -/
theorem elementNamespace_written
    (readable : ReadableNames e.name (e.attributes.map Attribute.name)) :
    elementNamespace e.name.qualified e.name.qualifier (writtenDeclarations scope e :: scope) =
      .ok e.name.namespaceUri := by
  have own : e.name ∈ e.names := List.mem_cons_self
  unfold elementNamespace
  cases huri : e.name.namespaceUri with
  | some uri =>
    have hne : uri ≠ "" := by
      rintro rfl
      exact readable.bound _ List.mem_cons_self huri
    rw [lookup?_written proper readable own huri]
    simp [hne]
  | none =>
    have means : Means (writtenDeclarations scope e :: scope) e.name :=
      means_written proper readable e.name own
    rw [Means, huri, Option.getD_none] at means
    have hqualifier : e.name.qualifier = none := by
      obtain ⟨within, _, _⟩ := proper e.name List.mem_cons_self
      cases hname : e.name with
      | mk qualifier localName namespaceUri =>
        rw [hname] at within huri
        cases within with
        | plain => rfl
        | prefixed => cases huri
    rw [hqualifier] at means ⊢
    cases hlookup : lookup? none (writtenDeclarations scope e :: scope) with
    | none => rfl
    | some uri =>
      rw [hlookup, Option.getD_some] at means
      simp [means]

/-- So is the namespace of an attribute. -/
theorem resolveAttribute_written
    (readable : ReadableNames e.name (e.attributes.map Attribute.name))
    (h : q ∈ e.attributes.map Attribute.name) (value : String) :
    resolveAttribute e.name.qualified (writtenDeclarations scope e :: scope) q.qualified value =
      .ok ⟨q, value⟩ := by
  have hmem := List.mem_cons_of_mem e.name h
  have lookup : ∀ {uri}, q.qualifier.isSome = true → q.namespaceUri = some uri →
      lookup? q.qualifier (writtenDeclarations scope e :: scope) = some uri :=
    fun hq huri => lookup?_written proper readable (mem_names hmem hq) huri
  obtain ⟨within, split, _⟩ := proper _ hmem
  unfold resolveAttribute
  rw [split]
  cases within with
  | plain => rfl
  | prefixed localName hfind =>
    have hlookup := lookup rfl rfl
    change (match lookup? _ (writtenDeclarations scope e :: scope) with
      | some uri => _
      | none => _) = _
    rw [hlookup]

include nothing

theorem written_eq (scope : Scope) : writtenDeclarations scope e = requireAll scope [] e.names := by
  rw [writtenDeclarations_eq scope (qualified_of_proper proper), nothing]

/-- A declaration is written for one of the names. -/
theorem mem_written (h : d ∈ writtenDeclarations scope e) :
    ∃ q ∈ e.name :: e.attributes.map Attribute.name, d.qualifier = q.qualifier := by
  rw [written_eq nothing proper] at h
  rcases mem_requireAll h with h | ⟨q, hq, rfl⟩
  · cases h
  · exact ⟨q, mem_of_mem_names hq, rfl⟩

theorem plain_written (plain : PlainNames e.name (e.attributes.map Attribute.name)) :
    (e.written scope).Plain := by
  refine ⟨plain.name, fun a ha => plain.attributes _ (List.mem_map_of_mem ha), ?_⟩
  intro d hd qualifier hqualifier c hc
  obtain ⟨q, hq, hd⟩ := mem_written nothing proper hd
  have hname : IsName q.qualified.toList := by
    rcases List.mem_cons.1 hq with rfl | hq
    · exact plain.name
    · exact plain.attributes q hq
  rw [hd] at hqualifier
  refine hname.plain c ?_
  rw [QName.qualified, hqualifier]
  simp [hc]

theorem nodup_written (distinct : DistinctNames e.name (e.attributes.map Attribute.name)) :
    ((e.written scope).pairs.map Prod.fst).Nodup := by
  have declarations : (writtenDeclarations scope e).Pairwise
      fun d d' => d.qualifier ≠ d'.qualifier := by
    rw [written_eq nothing proper, ← List.pairwise_map]
    exact nodup_requireAll List.nodup_nil
  rw [Element.pairs, List.map_append, List.map_map, List.map_map, List.nodup_append]
  refine ⟨?_, ?_, ?_⟩
  · rw [List.Nodup, List.pairwise_map]
    exact declarations.imp fun hne h => hne (attributeName_injective h)
  · have nodup := distinct.nodup
    rw [List.map_map] at nodup
    exact nodup
  · rintro _ hdeclared _ hplain rfl
    obtain ⟨d, _, hd⟩ := List.mem_map.1 hdeclared
    obtain ⟨a, ha, hname⟩ := List.mem_map.1 hplain
    have hsome : declaration? a.name.qualified d.uri = some d :=
      declaration?_eq_some_iff.2 ⟨hname.trans hd.symm, rfl⟩
    cases hsome.symm.trans (undeclared_of_distinct proper distinct a ha d.uri)

theorem resolved_written (readable : ReadableNames e.name (e.attributes.map Attribute.name)) :
    (e.written scope).Resolved scope := by
  refine ⟨(proper _ List.mem_cons_self).split, elementNamespace_written proper readable, ?_,
    nodup_written nothing proper readable.toDistinctNames⟩
  intro a ha value
  exact ⟨undeclared_of_distinct proper readable.toDistinctNames a ha value,
    resolveAttribute_written proper readable (List.mem_map_of_mem ha) value⟩

theorem legible_written (plain : PlainNames e.name (e.attributes.map Attribute.name))
    (readable : ReadableNames e.name (e.attributes.map Attribute.name)) (scope : Scope) :
    (e.written scope).Legible scope :=
  ⟨resolved_written nothing proper readable, plain_written nothing proper plain, readable.opens⟩

end Element

end Xml

/-- Wherever the element stands, it can be read from what is written for it. -/
def Element.Readable (e : Element) : Prop :=
  ∀ scope, (e.written scope).Legible scope

theorem Element.declarations_written (scope : Xml.Scope) (e : Element) :
    (e.written scope).declarations = Xml.writtenDeclarations scope e := rfl

/-! ## What is written for a content -/

namespace Content

mutual

/-- The content with the declarations that are written on its elements. -/
def written (scope : Xml.Scope) : Content → Content
  | .element e children =>
    .element (e.written scope) (writtenAll (Xml.writtenDeclarations scope e :: scope) children)
  | .text s => .text s
  | .comment s => .comment s

def writtenAll (scope : Xml.Scope) : List Content → List Content
  | [] => []
  | c :: cs => written scope c :: writtenAll scope cs

end

mutual

theorem legible_written : ∀ {c : Content} {scope : Xml.Scope}, c.Clear Element.Readable →
    (c.written scope).Legible scope
  | .element e children, scope, h => by
    rw [Clear] at h
    rw [written, Legible]
    exact ⟨h.1 scope, legibleAll_writtenAll h.2⟩
  | .text _, _, _ => trivial
  | .comment _, _, h => h

theorem legibleAll_writtenAll : ∀ {cs : List Content} {scope : Xml.Scope},
    ClearAll Element.Readable cs → LegibleAll scope (writtenAll scope cs)
  | [], _, _ => trivial
  | _ :: _, _, h => by
    rw [ClearAll] at h
    rw [writtenAll, LegibleAll]
    exact ⟨legible_written h.1, legibleAll_writtenAll h.2⟩

end

mutual

/-- With its declarations the content is written as without them. -/
theorem contentText_written : ∀ {c : Content} {scope : Xml.Scope}, c.Clear Element.Readable →
    Xml.contentText scope (c.written scope) = Xml.contentText scope c
  | .element e [], scope, h => by
    rw [Clear] at h
    rw [written, writtenAll, Xml.contentText, Xml.contentText,
      Xml.writtenDeclarations_of_resolved (h.1 scope).resolved]
    rfl
  | .element e (c :: cs), scope, h => by
    rw [Clear, ClearAll] at h
    rw [written, writtenAll, Xml.contentText, Xml.contentText,
      Xml.writtenDeclarations_of_resolved (h.1 scope).resolved]
    simp only [Element.declarations_written, contentText_written h.2.1, contentsText_written h.2.2]
    rfl
  | .text _, _, _ => rfl
  | .comment _, _, _ => rfl

theorem contentsText_written : ∀ {cs : List Content} {scope : Xml.Scope},
    ClearAll Element.Readable cs →
    Xml.contentsText scope (writtenAll scope cs) = Xml.contentsText scope cs
  | [], _, _ => rfl
  | _ :: _, _, h => by
    rw [ClearAll] at h
    rw [writtenAll, Xml.contentsText, Xml.contentsText, contentText_written h.1,
      contentsText_written h.2]

end

mutual

theorem elements_written : ∀ (c : Content) (scope : Xml.Scope),
    (c.written scope).textOf = c.textOf ∧ (c.written scope).elements = c.elements
  | .element e children, scope => by
    obtain ⟨text, rest⟩ :=
      elementsAll_writtenAll children (Xml.writtenDeclarations scope e :: scope)
    rw [written, textOf, textOf, elements, elements, text, rest]
    exact ⟨rfl, rfl⟩
  | .text _, _ => ⟨rfl, rfl⟩
  | .comment _, _ => ⟨rfl, rfl⟩

theorem elementsAll_writtenAll : ∀ (cs : List Content) (scope : Xml.Scope),
    textOfAll (writtenAll scope cs) = textOfAll cs ∧
      elementsAll (writtenAll scope cs) = elementsAll cs
  | [], _ => ⟨rfl, rfl⟩
  | c :: cs, scope => by
    obtain ⟨text, first⟩ := elements_written c scope
    obtain ⟨texts, rest⟩ := elementsAll_writtenAll cs scope
    rw [writtenAll, textOfAll, textOfAll, elementsAll, elementsAll, text, texts, first, rest]
    exact ⟨rfl, rfl⟩

end

end Content

end PartPatch
