import PartPatch.Proofs.Tree.Content
import PartPatch.Xml.Printer

/-!
# Prefixes in a written document

What is written on an element and around it binds the prefixes of the element's names. The bindings
are those that the names need exactly if no two of the names use one prefix for different
namespaces: the declaration that a later name needs replaces the one that an earlier name needed.
-/

namespace PartPatch

set_option autoImplicit false

/-- The name of the element and the names of its attributes that have a prefix. -/
def Element.names (e : Element) : List QName :=
  e.name :: (e.attributes.map Attribute.name).filter fun q => q.qualifier.isSome

/-- Every attribute with a prefix has a namespace. -/
def Element.Qualified (e : Element) : Prop :=
  ∀ a ∈ e.attributes, a.name.qualifier.isSome = true → a.name.namespaceUri.isSome = true

namespace Xml

/-- In the scope the prefix of the name leads to its namespace, the empty text standing for none. -/
def Means (scope : Scope) (q : QName) : Prop :=
  (lookup? q.qualifier scope).getD "" = q.namespaceUri.getD ""

/-- The names of the element mean what they should in what is written on it and around it. -/
def Faithful (scope : Scope) (e : Element) : Prop :=
  ∀ q ∈ e.names, Means (writtenDeclarations scope e :: scope) q

/-- One prefix stands for one namespace in all of the names. -/
structure Compatible (names : List QName) : Prop where
  agree : ∀ q ∈ names, ∀ r ∈ names, q.qualifier = r.qualifier →
    q.namespaceUri.getD "" = r.namespaceUri.getD ""
  xml : ∀ q ∈ names, q.qualifier = some "xml" → q.namespaceUri.getD "" = xmlNamespace

variable {scope : Scope} {declarations : List NamespaceDecl} {e : Element} {names : List QName}
  {qualifier other : Option String} {uri : String}

/-! ## One binding -/

theorem lookup?_cons (h : qualifier ≠ some "xml") :
    lookup? qualifier (declarations :: scope) =
      ((declarations.find? fun d => d.qualifier = qualifier).map NamespaceDecl.uri).or
        (lookup? qualifier scope) := by
  rw [lookup?, lookup?, if_neg h, if_neg h, List.flatten_cons, List.find?_append, Option.map_or]

theorem lookup?_xml (scope : Scope) : lookup? (some "xml") scope = some xmlNamespace :=
  if_pos rfl

/-- Afterwards the prefix is bound as required. -/
theorem lookup?_require_self (h : qualifier ≠ some "xml") :
    (lookup? qualifier (require scope qualifier uri declarations :: scope)).getD "" = uri := by
  rw [require, if_neg h]
  by_cases hbound : (lookup? qualifier (declarations :: scope)).getD "" = uri
  · rw [if_pos hbound]
    exact hbound
  · have hgone : (declarations.filter fun d => d.qualifier ≠ qualifier).find?
        (fun d => d.qualifier = qualifier) = none := by
      rw [List.find?_eq_none]
      intro d hd
      simpa using (List.mem_filter.1 hd).2
    rw [if_neg hbound, lookup?_cons h, List.find?_append, hgone]
    simp

/-- Other prefixes keep their bindings. -/
theorem lookup?_require_of_ne (h : other ≠ qualifier) :
    lookup? other (require scope qualifier uri declarations :: scope) =
      lookup? other (declarations :: scope) := by
  by_cases hxml : other = some "xml"
  · rw [hxml, lookup?_xml, lookup?_xml]
  · rw [lookup?_cons hxml, lookup?_cons hxml, require]
    split
    · rfl
    · split
      · rfl
      · have hkeep : ((declarations.filter fun d => d.qualifier ≠ qualifier) ++
            [NamespaceDecl.mk qualifier uri]).find? (fun d => d.qualifier = other) =
            declarations.find? fun d => d.qualifier = other := by
          rw [List.find?_append, List.find?_filter]
          have hlast : [NamespaceDecl.mk qualifier uri].find?
              (fun d => d.qualifier = other) = none := by
            simp [h.symm]
          rw [hlast, Option.or_none]
          congr 1
          funext d
          by_cases hd : d.qualifier = other
          · simp [hd, h]
          · simp [hd]
        rw [hkeep]

theorem require_of_means {q : QName} (h : Means (declarations :: scope) q) :
    require scope q.qualifier (q.namespaceUri.getD "") declarations = declarations := by
  rw [require]
  split
  · rfl
  · exact if_pos h

/-! ## All bindings of an element -/

/-- The bindings are made for one name after the other. -/
def requireAll (scope : Scope) (declarations : List NamespaceDecl) (names : List QName) :
    List NamespaceDecl :=
  names.foldl (fun declarations q =>
    require scope q.qualifier (q.namespaceUri.getD "") declarations) declarations

theorem writtenDeclarations_eq (scope : Scope) (qualified : e.Qualified) :
    writtenDeclarations scope e = requireAll scope e.declarations e.names := by
  rw [writtenDeclarations, Element.names, requireAll, List.foldl_cons]
  generalize require scope e.name.qualifier _ e.declarations = declarations
  unfold Element.Qualified at qualified
  generalize e.attributes = attributes at qualified
  induction attributes generalizing declarations with
  | nil => rfl
  | cons a rest ih =>
    have hrest := fun b hb => qualified b (List.mem_cons_of_mem a hb)
    have ha := qualified a List.mem_cons_self
    rw [List.foldl_cons, List.map_cons]
    cases hq : a.name.qualifier with
    | none =>
      rw [List.filter_cons_of_neg (by simp [hq])]
      exact ih _ hrest
    | some qualifier =>
      obtain ⟨uri, huri⟩ := Option.isSome_iff_exists.1 (ha (by rw [hq]; rfl))
      rw [List.filter_cons_of_pos (by simp [hq]), List.foldl_cons, hq, huri]
      exact ih _ hrest

theorem mem_require {d : NamespaceDecl} (h : d ∈ require scope qualifier uri declarations) :
    d ∈ declarations ∨ d = ⟨qualifier, uri⟩ := by
  rw [require] at h
  split at h
  · exact Or.inl h
  · split at h
    · exact Or.inl h
    · rcases List.mem_append.1 h with h | h
      · exact Or.inl (List.mem_of_mem_filter h)
      · exact Or.inr (List.mem_singleton.1 h)

/-- Every declaration was there or is one that a name needs. -/
theorem mem_requireAll {d : NamespaceDecl} (h : d ∈ requireAll scope declarations names) :
    d ∈ declarations ∨ ∃ q ∈ names, d = ⟨q.qualifier, q.namespaceUri.getD ""⟩ := by
  induction names generalizing declarations with
  | nil => exact Or.inl h
  | cons q names ih =>
    rw [requireAll, List.foldl_cons] at h
    rcases ih h with h | ⟨r, hr, h⟩
    · rcases mem_require h with h | h
      · exact Or.inl h
      · exact Or.inr ⟨q, List.mem_cons_self, h⟩
    · exact Or.inr ⟨r, List.mem_cons_of_mem q hr, h⟩

theorem nodup_require (h : (declarations.map NamespaceDecl.qualifier).Nodup) :
    ((require scope qualifier uri declarations).map NamespaceDecl.qualifier).Nodup := by
  rw [require]
  split
  · exact h
  · split
    · exact h
    · rw [List.map_append, List.map_singleton, List.nodup_append]
      refine ⟨h.sublist (List.filter_sublist.map _), by simp, ?_⟩
      intro other hother q hq
      obtain ⟨d, hd, rfl⟩ := List.mem_map.1 hother
      rw [List.mem_singleton.1 hq]
      simpa using (List.mem_filter.1 hd).2

/-- No prefix is declared twice. -/
theorem nodup_requireAll (h : (declarations.map NamespaceDecl.qualifier).Nodup) :
    ((requireAll scope declarations names).map NamespaceDecl.qualifier).Nodup := by
  induction names generalizing declarations with
  | nil => exact h
  | cons q names ih => exact ih (nodup_require h)

/-- What has been bound for earlier names stays right while names are compatible. -/
theorem means_requireAll {earlier : List QName} (compatible : Compatible (earlier ++ names))
    (h : ∀ q ∈ earlier, Means (declarations :: scope) q) :
    ∀ q ∈ earlier ++ names, Means (requireAll scope declarations names :: scope) q := by
  induction names generalizing earlier declarations with
  | nil =>
    rw [List.append_nil]
    exact h
  | cons r names ih =>
    rw [requireAll, List.foldl_cons, ← requireAll, List.append_cons]
    rw [List.append_cons] at compatible
    refine ih compatible ?_
    intro q hq
    have hr : r ∈ earlier ++ [r] := List.mem_append_right _ List.mem_cons_self
    have mem : ∀ {p}, p ∈ earlier ++ [r] → p ∈ earlier ++ [r] ++ names :=
      fun hp => List.mem_append_left _ hp
    by_cases hxml : q.qualifier = some "xml"
    · rw [Means, hxml, lookup?_xml, compatible.xml q (mem hq) hxml]
      rfl
    · by_cases hqr : q.qualifier = r.qualifier
      · rw [Means, hqr, lookup?_require_self (by rwa [← hqr])]
        exact compatible.agree r (mem hr) q (mem hq) hqr.symm
      · have hq' : q ∈ earlier := by
          rcases List.mem_append.1 hq with hq | hq
          · exact hq
          · rw [List.mem_singleton.1 hq] at hqr
            exact absurd rfl hqr
        rw [Means, lookup?_require_of_ne hqr]
        exact h q hq'

/-- Whatever is written around the element. -/
theorem faithful_iff (scope : Scope) (qualified : e.Qualified) :
    Faithful scope e ↔ Compatible e.names := by
  constructor
  · intro h
    refine ⟨?_, ?_⟩
    · intro q hq r hr e
      have hq := h q hq
      have hr := h r hr
      rw [Means, e] at hq
      exact hq.symm.trans hr
    · intro q hq hxml
      have hq := h q hq
      rw [Means, hxml, lookup?_xml] at hq
      exact hq.symm
  · intro compatible q hq
    rw [writtenDeclarations_eq scope qualified]
    have nothing : ∀ q ∈ ([] : List QName), Means (e.declarations :: scope) q := by
      intro q hq
      cases hq
    exact means_requireAll compatible nothing q hq

/-- An element whose own declarations suffice is written with them. -/
theorem writtenDeclarations_of_means (qualified : e.Qualified)
    (h : ∀ q ∈ e.names, Means (e.declarations :: scope) q) :
    writtenDeclarations scope e = e.declarations := by
  rw [writtenDeclarations_eq scope qualified, requireAll]
  generalize e.names = names at h
  induction names with
  | nil => rfl
  | cons q names ih =>
    rw [List.foldl_cons, require_of_means (h q List.mem_cons_self)]
    exact ih fun r hr => h r (List.mem_cons_of_mem q hr)

end Xml

/-! ## The text of a node -/

namespace Tree

open Xml

variable {t : Tree} {x c : NodeId} {e : Element}

/-- What is written on the ancestors of the node, innermost first. -/
def writtenScope (t : Tree) (x : NodeId) : Scope :=
  ((t.lineage x).tail.filterMap t.element?).foldr
    (fun e scope => writtenDeclarations scope e :: scope) []

/-- What is written for the node and all that is below it. -/
def nodeText (t : Tree) (x : NodeId) : String :=
  contentsText (t.writtenScope x) (t.contentAt x)

theorem contentsText_append (scope : Scope) (cs ds : List Content) :
    contentsText scope (cs ++ ds) = contentsText scope cs ++ contentsText scope ds := by
  induction cs with
  | nil => rw [List.nil_append, contentsText, String.empty_append]
  | cons c cs ih => rw [List.cons_append, contentsText, contentsText, ih, String.append_assoc]

theorem contentsText_below {scope : Scope} (h : ∀ c ∈ t.children x, t.writtenScope c = scope) :
    contentsText scope (t.contentBelow x) = String.join ((t.children x).map t.nodeText) := by
  rw [contentBelow_eq]
  generalize t.children x = children at h
  induction children with
  | nil => rfl
  | cons c children ih =>
    rw [List.flatMap_cons, contentsText_append, List.map_cons, String.join_cons,
      ih fun d hd => h d (List.mem_cons_of_mem c hd), nodeText, h c List.mem_cons_self]

namespace WellFormed

theorem writtenScope_of_parent (wf : t.WellFormed) (h : t.Parent x c) :
    t.writtenScope c = match t.element? x with
      | some e => writtenDeclarations (t.writtenScope x) e :: t.writtenScope x
      | none => t.writtenScope x := by
  have hx : t.lineage x = x :: (t.lineage x).tail := by
    rw [wf.lineage_eq x, List.tail_cons]
  rw [writtenScope, writtenScope, wf.lineage_of_parent h, List.tail_cons, hx, List.filterMap_cons,
    List.tail_cons]
  cases t.element? x with
  | none => rfl
  | some e => rfl

/-- An element is written with the declarations of its tag, around what is written for its
children. -/
theorem nodeText_element (wf : t.WellFormed) (he : t.element? x = some e) :
    t.nodeText x = "<" ++ tagText (writtenDeclarations (t.writtenScope x) e) e ++
      if t.children x = [] then "/>"
      else ">" ++ String.join ((t.children x).map t.nodeText) ++ "</" ++ e.name.qualified ++ ">" := by
  have hk := element?_eq_some_iff.1 he
  have below : contentsText (writtenDeclarations (t.writtenScope x) e :: t.writtenScope x)
      (t.contentBelow x) = String.join ((t.children x).map t.nodeText) := by
    apply contentsText_below
    intro c hc
    rw [wf.writtenScope_of_parent ((wf.mem_children_iff x c).1 hc), he]
  rw [nodeText, wf.contentAt_eq, hk]
  cases hchildren : t.children x with
  | nil =>
    rw [contentBelow_eq, hchildren, List.flatMap_nil, contentsText, contentText, contentsText,
      String.append_empty, if_pos rfl]
  | cons c children =>
    have hc : t.Parent x c := by
      rw [Parent, ← wf.mem_children_iff, hchildren]
      exact List.mem_cons_self
    rw [hchildren] at below
    obtain ⟨content, hc', _⟩ := wf.exists_content hc
    rcases hcontent : t.contentBelow x with _ | ⟨d, ds⟩
    · rw [contentBelow_eq, hchildren, List.flatMap_cons, hc'] at hcontent
      cases hcontent
    · rw [hcontent, contentsText] at below
      rw [contentsText, contentText, contentsText, String.append_empty,
        if_neg (List.cons_ne_nil _ _), ← below]
      simp only [String.append_assoc]

/-- The document is written as its header and its children. -/
theorem write_eq (wf : t.WellFormed) :
    write t = (t.header.map headerText).getD "" ++
      String.join ((t.children documentId).map t.nodeText) := by
  have hdocument : t.element? documentId = none := by
    rw [Tree.element?, (wf.document_iff documentId).2 rfl]
  have below : contentsText [] (t.contentBelow documentId) =
      String.join ((t.children documentId).map t.nodeText) := by
    apply contentsText_below
    intro c hc
    rw [wf.writtenScope_of_parent ((wf.mem_children_iff _ _).1 hc), hdocument, writtenScope,
      wf.lineage_eq, wf.document_top]
    rfl
  rw [write, content, below]
  cases t.header with
  | none => rfl
  | some header => rfl

end WellFormed

end Tree

end PartPatch
