import PartPatch.Proofs.Xml.Bare
import PartPatch.Proofs.Xml.Scoping

/-!
# The tags of a written document

A document whose names are plain is written with one tag for every element, in the order of the
document, whatever its texts and values are. If it can be read, then every prefix in it is declared;
but for a prefix that stands for the empty namespace no declaration is ever written.
-/

namespace PartPatch

set_option autoImplicit false

/-- A declaration of the registry's, for a namespace that is not empty. -/
inductive NamespaceDecl.Within (namespaces : Entries String) : NamespaceDecl → Prop where
  | prefixed {qualifier uri : String} (h : namespaces.find? qualifier = some uri) (hne : uri ≠ "") :
    Within namespaces ⟨some qualifier, uri⟩

/-- Wherever it stands, the element is written with a tag of plain names. -/
structure Element.Tagged (e : Element) : Prop where
  opens : e.Opens
  plain : ∀ scope, (e.written scope).Plain

namespace Content

mutual

/-- The elements in the order of the document, each with the declarations that are written around
it. -/
def placed (scope : Xml.Scope) : Content → List (Xml.Scope × Element)
  | .element e children =>
    (scope, e) :: placedAll (Xml.writtenDeclarations scope e :: scope) children
  | .text _ => []
  | .comment _ => []

def placedAll (scope : Xml.Scope) : List Content → List (Xml.Scope × Element)
  | [] => []
  | c :: cs => placed scope c ++ placedAll scope cs

end

variable {I J : Element → Prop}

mutual

theorem every_iff_placed : ∀ {c : Content} (scope : Xml.Scope),
    c.Every I ↔ ∀ p ∈ c.placed scope, I p.2
  | .element e children, scope => by
    rw [Every, placed, List.forall_mem_cons,
      everyAll_iff_placed (Xml.writtenDeclarations scope e :: scope)]
  | .text _, _ => by simp [Every, placed]
  | .comment _, _ => by simp [Every, placed]

theorem everyAll_iff_placed : ∀ {cs : List Content} (scope : Xml.Scope),
    EveryAll I cs ↔ ∀ p ∈ placedAll scope cs, I p.2
  | [], _ => by simp [EveryAll, placedAll]
  | c :: cs, scope => by
    rw [EveryAll, placedAll, List.forall_mem_append, every_iff_placed scope,
      everyAll_iff_placed scope]

end

theorem Every.and {c : Content} (hI : c.Every I) (hJ : c.Every J) :
    c.Every fun e => I e ∧ J e := by
  rw [every_iff_placed []] at hI hJ ⊢
  exact fun p hp => ⟨hI p hp, hJ p hp⟩

end Content

namespace Xml

variable {s rest : List Char} {event : Event} {es : List Event} {tags : List (List Char)}
  {e : Element} {scope : Scope} {namespaces : Entries String} {declarations : List NamespaceDecl}
  {q : QName}

/-! ## Reading the tags -/

/-- The tag of an element that stands in the scope. -/
def tagOf (p : Scope × Element) : List Char :=
  (tagText (writtenDeclarations p.1 p.2) p.2).toList

theorem tagOf_eq (scope : Scope) (e : Element) :
    tagOf (scope, e) = tagInside e.name.qualified.toList (e.written scope).pairs :=
  toList_tagText (e.written scope)

/-- The text is markup, and these are its tags. -/
def HasTags (s : List Char) (tags : List (List Char)) : Prop :=
  ∃ es, events s = .ok es ∧ es.filterMap Event.tag? = tags

theorem HasTags.reads (h : HasTags rest tags) (hread : Reads s event rest) :
    HasTags s (event.tag?.toList ++ tags) := by
  obtain ⟨es, hes, rfl⟩ := h
  refine ⟨event :: es, ?_, ?_⟩
  · rw [events_of_reads hread, hes]
    rfl
  · rw [List.filterMap_cons]
    cases event.tag? <;> rfl

/-- Characters in front of markup are part of a text. -/
theorem HasTags.text (h : HasTags rest tags) (plain : ∀ c ∈ s, c ≠ '<') :
    HasTags (s ++ rest) tags := by
  have hrun : ∀ c ∈ rest.takeWhile (· != '<'), c ≠ '<' := by
    intro c hc
    simpa using List.mem_takeWhile_imp hc
  have stops : Stops (rest.dropWhile (· != '<')) := by
    intro c hc
    have hnot := List.head?_dropWhile_not (· != '<') rest
    rw [Option.mem_def.1 hc] at hnot
    simpa using hnot
  have behind : HasTags (rest.dropWhile (· != '<')) tags := by
    by_cases hnil : rest.takeWhile (· != '<') = []
    · rw [← List.takeWhile_append_dropWhile (p := (· != '<')) (l := rest), hnil] at h
      exact h
    · obtain ⟨es, hes, htags⟩ := h
      have hread := reads_text hnil hrun stops
      rw [List.takeWhile_append_dropWhile] at hread
      rw [events_of_reads hread] at hes
      obtain ⟨es', hes', rfl⟩ := map_eq_ok_iff.1 hes
      exact ⟨es', hes', htags⟩
  by_cases hnil : s ++ rest.takeWhile (· != '<') = []
  · obtain ⟨rfl, hnil⟩ := List.append_eq_nil_iff.1 hnil
    exact h
  · have hread := reads_text hnil (List.forall_mem_append.2 ⟨plain, hrun⟩) stops
    rw [List.append_assoc, List.takeWhile_append_dropWhile] at hread
    exact behind.reads hread

mutual

theorem hasTags_contentText : ∀ (c : Content) {scope : Scope} {rest : List Char}
    {tags : List (List Char)}, c.Clear Element.Tagged → HasTags rest tags →
    HasTags ((contentText scope c).toList ++ rest) ((c.placed scope).map tagOf ++ tags)
  | .text s, scope, rest, tags, _, h => by
    rw [contentText]
    exact h.text fun _ => ne_of_mem_escapeText
  | .comment s, scope, rest, tags, clear, h => by
    rw [toList_comment]
    simp only [List.cons_append, List.append_assoc, List.nil_append]
    exact h.reads (reads_comment clear rest)
  | .element e [], scope, rest, tags, clear, h => by
    rw [Content.Clear] at clear
    rw [toList_emptyElement, List.cons_append, List.append_assoc]
    exact h.reads (reads_emptyTag (clear.1.plain scope) clear.1.opens rest)
  | .element e (c :: cs), scope, rest, tags, clear, h => by
    rw [Content.Clear] at clear
    rw [toList_element]
    simp only [List.cons_append, List.append_assoc, List.nil_append]
    have plain := clear.1.plain scope
    have closing := h.reads (reads_endTag plain.name rest)
    exact (hasTags_contentsText (c :: cs) clear.2 closing).reads
      (reads_startTag plain clear.1.opens _)

theorem hasTags_contentsText : ∀ (cs : List Content) {scope : Scope} {rest : List Char}
    {tags : List (List Char)}, Content.ClearAll Element.Tagged cs → HasTags rest tags →
    HasTags ((contentsText scope cs).toList ++ rest)
      ((Content.placedAll scope cs).map tagOf ++ tags)
  | [], scope, rest, tags, _, h => by
    rw [contentsText]
    exact h
  | c :: cs, scope, rest, tags, clear, h => by
    rw [Content.ClearAll] at clear
    rw [contentsText, Content.placedAll, String.toList_append, List.map_append, List.append_assoc,
      List.append_assoc]
    exact hasTags_contentText c clear.1 (hasTags_contentsText cs clear.2 h)

end

/-- The tags of a written document are those of its elements. -/
theorem hasTags_write {t : Tree} {h : Header} (hheader : t.header = some h) (closed : h.Closed)
    (clear : Content.ClearAll Element.Tagged t.content) :
    HasTags (withoutByteOrderMark (write t).toList)
      ((Content.placedAll [] t.content).map tagOf) := by
  have nothing : HasTags [] [] := ⟨[], by rw [events], rfl⟩
  have contents : HasTags ((contentsText [] t.content).toList ++ [])
      ((Content.placedAll [] t.content).map tagOf ++ []) :=
    hasTags_contentsText t.content clear nothing
  rw [List.append_nil, List.append_nil] at contents
  have newline := contents.text (s := ['\n']) (by simp)
  have hread := reads_header (not_infix_attributes closed) ⟨' ', _, rfl, rfl⟩
    (['\n'] ++ (contentsText [] t.content).toList)
  have whole : (write t).toList = '<' :: '?' :: 'x' :: 'm' :: 'l' ::
      (h.attributes.flatMap RawAttribute.text ++ '?' :: '>' ::
        (['\n'] ++ (contentsText [] t.content).toList)) := by
    unfold write
    rw [hheader, String.toList_append, toList_headerText]
    simp
  rw [whole]
  exact newline.reads hread

/-! ## What the tags declare -/

theorem within_require (around : ∀ d ∈ scope.flatten, d.Within namespaces)
    (own : ∀ d ∈ declarations, d.Within namespaces) (hq : q.Within namespaces) :
    ∀ d ∈ require scope q.qualifier (q.namespaceUri.getD "") declarations, d.Within namespaces := by
  intro d hd
  rw [require] at hd
  split at hd
  · exact own d hd
  · next hxml =>
    split at hd
    · exact own d hd
    · next unbound =>
      rcases List.mem_append.1 hd with hd | hd
      · exact own d (List.mem_of_mem_filter hd)
      · rw [List.mem_singleton.1 hd]
        -- If nothing is in force for the prefix, it stands for the empty namespace as it is.
        have free : (∀ d ∈ (declarations :: scope).flatten, d.Within namespaces →
            d.qualifier ≠ q.qualifier) →
            (lookup? q.qualifier (declarations :: scope)).getD "" = "" := by
          intro hne
          have hnone : (declarations :: scope).flatten.find?
              (fun d => d.qualifier = q.qualifier) = none := by
            rw [List.find?_eq_none]
            intro d hd
            have hwithin : d.Within namespaces := by
              rw [List.flatten_cons] at hd
              exact (List.mem_append.1 hd).elim (own d) (around d)
            simpa using hne d hd hwithin
          rw [lookup?, if_neg hxml, hnone]
          rfl
        cases hq with
        | plain localName =>
          refine absurd (free ?_) unbound
          rintro d _ ⟨_, _⟩ ⟨⟩
        | @prefixed qualifier uri localName hfind =>
          by_cases huri : uri = ""
          · rw [huri] at unbound hfind
            refine absurd (free ?_) unbound
            rintro d _ ⟨hfind', hne⟩ ⟨⟩
            exact hne (Option.some.inj (hfind'.symm.trans hfind))
          · exact .prefixed hfind huri

theorem within_requireAll {names : List QName} (around : ∀ d ∈ scope.flatten, d.Within namespaces)
    (own : ∀ d ∈ declarations, d.Within namespaces) (hnames : ∀ q ∈ names, q.Within namespaces) :
    ∀ d ∈ requireAll scope declarations names, d.Within namespaces := by
  induction names generalizing declarations with
  | nil => exact own
  | cons q names ih =>
    rw [List.forall_mem_cons] at hnames
    exact ih (within_require around own hnames.1) hnames.2

theorem within_written (bare : e.Bare (ProperNames namespaces))
    (around : ∀ d ∈ scope.flatten, d.Within namespaces) :
    ∀ d ∈ writtenDeclarations scope e, d.Within namespaces := by
  rw [written_eq bare.declarations bare.names]
  refine within_requireAll around ?_ ?_
  · intro d hd
    cases hd
  · intro q hq
    exact (bare.names q (mem_of_mem_names hq)).within

mutual

/-- Only what is in the registry is declared, and no prefix for the empty namespace. -/
theorem within_placed : ∀ {c : Content} {scope : Scope},
    c.Every (Element.Bare (ProperNames namespaces)) →
    (∀ d ∈ scope.flatten, d.Within namespaces) →
    ∀ p ∈ c.placed scope, ∀ d ∈ writtenDeclarations p.1 p.2, d.Within namespaces
  | .element e children, scope, every, around => by
    rw [Content.Every] at every
    have own := within_written every.1 around
    rw [Content.placed, List.forall_mem_cons]
    refine ⟨own, within_placedAll every.2 ?_⟩
    rw [List.flatten_cons, List.forall_mem_append]
    exact ⟨own, around⟩
  | .text _, _, _, _ => by simp [Content.placed]
  | .comment _, _, _, _ => by simp [Content.placed]

theorem within_placedAll : ∀ {cs : List Content} {scope : Scope},
    Content.EveryAll (Element.Bare (ProperNames namespaces)) cs →
    (∀ d ∈ scope.flatten, d.Within namespaces) →
    ∀ p ∈ Content.placedAll scope cs, ∀ d ∈ writtenDeclarations p.1 p.2, d.Within namespaces
  | [], _, _, _ => by simp [Content.placedAll]
  | c :: cs, scope, every, around => by
    rw [Content.EveryAll] at every
    rw [Content.placedAll, List.forall_mem_append]
    exact ⟨within_placed every.1 around, within_placedAll every.2 around⟩

end

theorem mem_openTags {tag : List Char} (h : tag ∈ es.foldl openTags tags) :
    tag ∈ tags ∨ tag ∈ es.filterMap Event.tag? := by
  induction es generalizing tags with
  | nil => exact Or.inl h
  | cons event es ih =>
    rcases ih h with h | h
    · cases event with
      | startTag inside =>
        rcases List.mem_cons.1 h with rfl | h
        · exact Or.inr List.mem_cons_self
        · exact Or.inl h
      | endTag name => exact Or.inl (List.mem_of_mem_tail h)
      | _ => exact Or.inl h
    · refine Or.inr ?_
      rw [List.filterMap_cons]
      split
      · exact h
      · exact List.mem_cons_of_mem _ h

section Names

variable (nothing : e.declarations = [])
  (proper : ProperNames namespaces e.name (e.attributes.map Attribute.name))
  (plain : PlainNames e.name (e.attributes.map Attribute.name))
  (distinct : DistinctNames e.name (e.attributes.map Attribute.name))
include nothing proper plain distinct

theorem tagAttributes_tagOf : tagAttributes (tagOf (scope, e)) = .ok (e.written scope).pairs := by
  have hplain : (e.written scope).Plain := plain_written nothing proper plain
  rw [tagOf_eq]
  exact tagAttributes_tagInside plain.name (isName_of_mem_pairs hplain)
    (nodup_written nothing proper distinct)

theorem tagDeclarations_tagOf :
    tagDeclarations (tagOf (scope, e)) = writtenDeclarations scope e := by
  rw [tagDeclarations, tagAttributes_tagOf nothing proper plain distinct]
  exact filterMap_pairs fun a ha => undeclared_of_distinct proper distinct a ha a.value

omit nothing in
theorem mem_tagNames (hq : q ∈ e.name :: e.attributes.map Attribute.name) :
    q.qualified.toList ∈ tagNames (tagOf (scope, e)) (e.written scope).pairs := by
  have htag : tagName (tagOf (scope, e)) = e.name.qualified.toList := by
    rw [tagOf_eq, tagName_tagInside plain.name]
  have hplain : (e.written scope).pairs.filter (fun pair => (declaration? pair.1 pair.2).isNone) =
      e.attributes.map fun a => (a.name.qualified, a.value) :=
    filter_pairs fun a ha => undeclared_of_distinct proper distinct a ha a.value
  rw [tagNames, hplain, htag, List.mem_cons]
  refine (List.mem_cons.1 hq).imp (fun e => by rw [e]) ?_
  intro hq
  obtain ⟨a, ha, rfl⟩ := List.mem_map.1 hq
  exact List.mem_map_of_mem (List.mem_map_of_mem ha)

end Names

/-- Every prefix in a tag is declared in one of the tags. -/
theorem Declared.among_tags {inside : List Char} (declared : Declared es)
    (h : inside ∈ es.filterMap Event.tag?) :
    ∃ pairs, tagAttributes inside = .ok pairs ∧
      ∀ name ∈ tagNames inside pairs, ∀ qualifier localName,
        splitName name = (some qualifier, localName) → qualifier ≠ "xml" →
          ∃ tag ∈ es.filterMap Event.tag?,
            ∃ d ∈ tagDeclarations tag, d.qualifier = some qualifier := by
  obtain ⟨event, hevent, htag⟩ := List.mem_filterMap.1 h
  obtain ⟨before, behind, rfl⟩ := List.append_of_mem hevent
  obtain ⟨pairs, hpairs, names⟩ := declared before event behind rfl inside htag
  refine ⟨pairs, hpairs, ?_⟩
  intro name hname qualifier localName hsplit hxml
  obtain ⟨tag, hmem, declares⟩ := names name hname qualifier localName hsplit hxml
  refine ⟨tag, ?_, declares⟩
  rcases List.mem_cons.1 hmem with rfl | hopen
  · exact h
  · rw [List.filterMap_append]
    exact List.mem_append_left _ ((mem_openTags hopen).resolve_left (by simp))

/-- In a document that is read, no prefix stands for the empty namespace. -/
theorem bound_of_read {t v : Tree} {h : Header} (hheader : t.header = some h) (closed : h.Closed)
    (clear : Content.ClearAll (Element.Bare fun name attributes =>
      ProperNames namespaces name attributes ∧ PlainNames name attributes ∧
        DistinctNames name attributes) t.content)
    (hread : read (write t) = .ok v) :
    Content.EveryAll (fun e => ∀ q ∈ e.name :: e.attributes.map Attribute.name,
      q.qualifier ≠ some "xml" → q.namespaceUri ≠ some "") t.content := by
  have tagged : Content.ClearAll Element.Tagged t.content :=
    clear.mono fun e bare => ⟨bare.names.2.2.opens,
      fun _ => plain_written bare.declarations bare.names.1 bare.names.2.1⟩
  have proper : Content.EveryAll (Element.Bare (ProperNames namespaces)) t.content :=
    clear.every.mono fun e bare => ⟨bare.declarations, bare.names.1⟩
  have hwithin : ∀ p ∈ Content.placedAll [] t.content,
      ∀ d ∈ writtenDeclarations p.1 p.2, d.Within namespaces :=
    within_placedAll proper (by simp)
  have hbare := (Content.everyAll_iff_placed []).1 clear.every
  obtain ⟨es, hes, htags⟩ := hasTags_write hheader closed tagged
  obtain ⟨es', hes', hrun⟩ := exists_events_of_build (build_of_read hread).1
  cases hes.symm.trans hes'
  rw [Content.everyAll_iff_placed []]
  rintro ⟨scope, e⟩ hp q hq hxml hempty
  obtain ⟨nothing, hproper, hplain, hdistinct⟩ := hbare _ hp
  obtain ⟨qualifier, localName, rfl⟩ : ∃ qualifier localName,
      q = ⟨some qualifier, localName, some ""⟩ := by
    cases (hproper q hq).within with
    | plain => cases hempty
    | prefixed localName =>
      cases hempty
      exact ⟨_, _, rfl⟩
  have hmem : tagOf (scope, e) ∈ es.filterMap Event.tag? := by
    rw [htags]
    exact List.mem_map_of_mem hp
  obtain ⟨pairs, hpairs, declared⟩ := (declared_of_steps hrun).among_tags hmem
  cases hpairs.symm.trans (tagAttributes_tagOf nothing hproper hplain hdistinct)
  obtain ⟨tag, htag', d, hd, hqualifier⟩ :=
    declared _ (mem_tagNames hproper hplain hdistinct hq) qualifier localName
      (hproper _ hq).split (by simpa using hxml)
  rw [htags] at htag'
  obtain ⟨⟨scope', e'⟩, hp', rfl⟩ := List.mem_map.1 htag'
  obtain ⟨nothing', hproper', hplain', hdistinct'⟩ := hbare _ hp'
  rw [tagDeclarations_tagOf nothing' hproper' hplain' hdistinct'] at hd
  cases hwithin _ hp' d hd with
  | prefixed hfind hne =>
    cases hqualifier
    cases (hproper _ hq).within with
    | prefixed _ hfind' => exact hne (Option.some.inj (hfind.symm.trans hfind'))

end Xml

end PartPatch
