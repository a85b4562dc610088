import PartPatch.Proofs.Fragment.Document
import PartPatch.Proofs.Xml.Tags

/-!
# Fragments that can be read back

A fragment can be made into a document, written and read again exactly if its names are readable.
Whether they are is not checked when a registry is compiled: a prefix may stand for the empty
namespace, two symbols for attributes that are written alike, and an attribute may be called
`xmlns`.
-/

namespace PartPatch

set_option autoImplicit false

namespace FragmentNode

variable {P Q : QName → List QName → Prop} {I : Element → Prop} {v : Fragment.Values}

mutual

theorem each_and_iff : ∀ {n : FragmentNode},
    n.Each (fun name attributes => P name attributes ∧ Q name attributes) ↔ n.Each P ∧ n.Each Q
  | .node _ _ _ _ => by
    rw [Each, Each, Each, eachAll_and_iff]
    exact and_and_and_comm

theorem eachAll_and_iff : ∀ {ns : List FragmentNode},
    EachAll (fun name attributes => P name attributes ∧ Q name attributes) ns ↔
      EachAll P ns ∧ EachAll Q ns
  | [] => by simp [EachAll]
  | _ :: _ => by
    rw [EachAll, EachAll, EachAll, each_and_iff, eachAll_and_iff]
    exact and_and_and_comm

end

mutual

/-- A fragment has no comments. -/
theorem clear_of_every_render : ∀ {n : FragmentNode}, (n.render v).Every I → (n.render v).Clear I
  | .node _ _ text _, h => by
    rw [render, Content.Every, Content.everyAll_append] at h
    rw [render, Content.Clear, Content.clearAll_append]
    refine ⟨h.1, ?_, clearAll_of_everyAll_renderAll h.2.2⟩
    cases text with
    | none => trivial
    | some t => exact ⟨trivial, trivial⟩

theorem clearAll_of_everyAll_renderAll : ∀ {ns : List FragmentNode},
    Content.EveryAll I (renderAll v ns) → Content.ClearAll I (renderAll v ns)
  | [], _ => trivial
  | _ :: _, h => by
    rw [renderAll, Content.EveryAll] at h
    rw [renderAll, Content.ClearAll]
    exact ⟨clear_of_every_render h.1, clearAll_of_everyAll_renderAll h.2⟩

end

theorem every_render_iff {n : FragmentNode} :
    (n.render v).Every (Element.Bare P) ↔ n.Each P :=
  ⟨fun h => clear_render_iff.1 (clear_of_every_render h), fun h => (clear_render_iff.2 h).every⟩

theorem isElement_render (n : FragmentNode) : (n.render v).isElement = true := by
  cases n
  rfl

end FragmentNode

namespace Registry

open Xml

variable {d : Document} {r : Registry} {q : QName}

theorem proper_of_resolve (good : d.issues = []) {definition : NameDefinition}
    (h : definition.resolve d.namespaces = .ok q) : q.Proper d.namespaces := by
  have hlocal := localName_of_resolve h
  cases within_of_resolve h with
  | plain localName =>
    refine ⟨.plain localName, ?_, by simp [QName.plain]⟩
    have hsplit := splitName_plain hlocal
    rwa [String.ofList_toList] at hsplit
  | @prefixed qualifier uri localName hfind =>
    have hgood := issues_eq_nil_iff.1 good "namespaces" qualifier
    have hcolon : ':' ∉ qualifier.toList := fun bad =>
      hgood (.namespaces (Entries.find?_eq_some_iff.1 hfind) (.inr (.inl bad)))
    have hxmlns : qualifier ≠ "xmlns" := fun bad =>
      hgood (.namespaces (Entries.find?_eq_some_iff.1 hfind) (.inr (.inr bad)))
    refine ⟨.prefixed localName hfind, ?_, by simpa using hxmlns⟩
    have hsplit := splitName_append hcolon localName.toList
    rw [String.ofList_toList, String.ofList_toList] at hsplit
    rw [← hsplit, QName.qualified]
    simp

theorem each_proper (good : d.issues = []) {key : String} {f : Fragment}
    (hf : d.resolved.fragment? key = some f) : f.root.Each (ProperNames d.namespaces) := by
  have bare := FragmentNode.clear_render_iff (v := ⟨[], []⟩).2 (each_of_fragment? hf)
  refine FragmentNode.clear_render_iff.1 (bare.mono ?_)
  intro e he
  refine ⟨he.declarations, ?_⟩
  intro q hq
  obtain ⟨definition, h⟩ := he.names q hq
  exact proper_of_resolve good h

end Registry

namespace Xml

variable {t v : Tree} {scope : Scope} {c : Content} {e : Element}

/-- What is read has names that its tag tells apart. -/
theorem distinct_of_resolved (resolved : e.Resolved scope) (opens : e.Opens) :
    DistinctNames e.name (e.attributes.map Attribute.name) ∧
      ∀ q ∈ e.name :: e.attributes.map Attribute.name, q.qualifier = some "xml" →
        q.namespaceUri = some xmlNamespace := by
  refine ⟨⟨opens, ?_, ?_⟩, ?_⟩
  · intro hmem
    obtain ⟨a, ha, hname⟩ := List.mem_map.1 hmem
    have hnone := (resolved.attributes a ha "").1
    rw [hname] at hnone
    cases hnone
  · have distinct := resolved.distinct
    rw [Element.pairs, List.map_append, List.nodup_append, List.map_map, List.map_map] at distinct
    rw [List.map_map]
    exact distinct.2.1
  · intro q hq hxml
    rcases List.mem_cons.1 hq with rfl | hq
    · obtain ⟨_, hname⟩ := of_elementNamespace resolved.namespaceUri
      rw [hname, hxml, lookup?_xml]
      decide
    · obtain ⟨a, ha, rfl⟩ := List.mem_map.1 hq
      obtain ⟨_, hname⟩ := resolved.bound a ha (by rw [hxml]; rfl)
      rw [hname, hxml, lookup?_xml]

theorem everyAll_distinct_of_read {text : String} (hread : read text = .ok v)
    (same : Content.elementsAll v.content = Content.elementsAll t.content) :
    Content.EveryAll (fun e => DistinctNames e.name (e.attributes.map Attribute.name) ∧
      ∀ q ∈ e.name :: e.attributes.map Attribute.name, q.qualifier = some "xml" →
        q.namespaceUri = some xmlNamespace) t.content := by
  let told (name : QName) (attributes : List Attribute) : Prop :=
    ∃ declarations scope, (Element.mk name attributes declarations).Resolved scope ∧
      (Element.mk name attributes declarations).Opens
  have read : v.Every fun e => told e.name e.attributes := by
    intro x e he
    obtain ⟨_, scope, _, _, resolved, opens⟩ := (asRead_of_read hread).elements x e he
    exact ⟨e.declarations, scope, resolved, opens⟩
  have written : Content.EveryAll (fun e => told e.name e.attributes) t.content := by
    rw [Content.everyAll_iff_elements, ← same, ← Content.everyAll_iff_elements]
    exact Tree.everyAll_content read
  refine written.mono ?_
  rintro e ⟨declarations, scope, resolved, opens⟩
  exact distinct_of_resolved (e := ⟨e.name, e.attributes, declarations⟩) resolved opens

/-- A content whose elements are all readable can be written and read. -/
theorem exists_read (readable : c.Clear Element.Readable) (element : c.isElement = true)
    (content : t.content = [c]) (header : ∀ h, t.header = some h → h.Quotable ∧ h.Closed) :
    ∃ v, read (write t) = .ok v ∧ v.header = t.header ∧
      Content.elementsAll v.content = Content.elementsAll t.content := by
  have all : Content.ClearAll Element.Readable [c] := ⟨readable, trivial⟩
  obtain ⟨u, hheader, hcontent⟩ := Tree.exists_document t.header (c.written [])
  have same : u.content = Content.writtenAll [] t.content := by
    rw [hcontent, content, Content.writtenAll, Content.writtenAll]
  have legible : Content.LegibleAll [] u.content := by
    rw [same, content]
    exact Content.legibleAll_writtenAll all
  have root : u.content.countP Content.isElement = 1 := by
    rw [hcontent]
    cases c with
    | element e children => rfl
    | text s => cases element
    | comment s => cases element
  obtain ⟨v, hv, hvheader, hvcontent⟩ :=
    read_write_of_legible legible root (by rwa [hheader])
  refine ⟨v, ?_, hvheader.trans hheader, ?_⟩
  · rw [← hv, write, write, hheader, same, content, Content.contentsText_written all]
  · rw [hvcontent, Content.elementsAll_normalDocument, same,
      (Content.elementsAll_writtenAll t.content []).2]

/-- If a rendered fragment is written and read, then its names are readable. -/
theorem each_readable_of_read {namespaces : Entries String} {n : FragmentNode}
    {values : Fragment.Values} (proper : n.Each (ProperNames namespaces))
    (plain : n.Each PlainNames) {h : Header} (hheader : t.header = some h) (closed : h.Closed)
    (content : t.content = [n.render values]) (hread : read (write t) = .ok v)
    (same : Content.elementsAll v.content = Content.elementsAll t.content) :
    n.Each ReadableNames := by
  have bare := (FragmentNode.every_render_iff (v := values)).2
    (FragmentNode.each_and_iff.2 ⟨proper, plain⟩)
  have distinct := everyAll_distinct_of_read hread same
  rw [content] at distinct
  have names := bare.and distinct.1
  have clear : Content.ClearAll (Element.Bare fun name attributes =>
      ProperNames namespaces name attributes ∧ PlainNames name attributes ∧
        DistinctNames name attributes) t.content := by
    rw [content]
    refine ⟨FragmentNode.clear_of_every_render (names.mono ?_), trivial⟩
    rintro e ⟨⟨nothing, hproper, hplain⟩, hdistinct, _⟩
    exact ⟨nothing, hproper, hplain, hdistinct⟩
  have bound := bound_of_read hheader closed clear hread
  rw [content] at bound
  rw [← FragmentNode.every_render_iff (v := values)]
  refine (names.and bound.1).mono ?_
  rintro e ⟨⟨hbare, hdistinct, hxml⟩, hbound⟩
  refine ⟨hbare.declarations, hdistinct, ?_, hxml⟩
  intro q hq
  by_cases hqualifier : q.qualifier = some "xml"
  · rw [hxml q hq hqualifier]
    decide
  · exact hbound q hq hqualifier

end Xml

namespace Fragment

open Xml

variable {d : Registry.Document} {r : Registry} {key : String} {f : Fragment}
  {tokens : Token.Resolver} {t : Tree}

theorem quotable_documentHeader : documentHeader.Quotable ∧ documentHeader.Closed := by
  unfold Header.Quotable Header.Closed
  decide

/-- The document that a fragment is made into can be written and read again, with the same elements,
attributes and texts, exactly if the names of the fragment are readable. -/
theorem read_back_iff_readable (compiled : Registry.compile d = .ok r)
    (hf : r.fragment? key = some f) (plain : f.root.Each PlainNames)
    (made : f.instantiateDocument tokens r = .ok t) :
    (∃ v, read (write t) = .ok v ∧ v.header = t.header ∧
      Content.elementsAll v.content = Content.elementsAll t.content) ↔
    f.root.Each ReadableNames := by
  obtain ⟨good, rfl⟩ := Registry.compile_eq_ok_iff.1 compiled
  have proper := Registry.each_proper good hf
  obtain ⟨hheader, values, content⟩ := content_of_instantiateDocument made
  obtain ⟨quotable, closed⟩ := quotable_documentHeader
  constructor
  · rintro ⟨v, hread, _, same⟩
    exact each_readable_of_read proper plain hheader closed content hread same
  · intro readable
    have names :=
      FragmentNode.each_and_iff.2 ⟨proper, FragmentNode.each_and_iff.2 ⟨plain, readable⟩⟩
    have clear := (FragmentNode.clear_render_iff (v := values)).2 names
    refine exists_read (clear.mono ?_) (FragmentNode.isElement_render _) content ?_
    · intro e bare
      exact legible_written bare.declarations bare.names.1 bare.names.2.1 bare.names.2.2
    · rintro h hh
      cases hheader.symm.trans hh
      exact ⟨quotable, closed⟩

/-! ## Two fragments -/

/-- The prefix of an attribute stands for the empty namespace. -/
def emptyNamespace : Registry.Document where
  metadata := ⟨"", none, none⟩
  namespaces := .ofList [("d", "")]
  elements := .ofList [("e", .short "e")]
  attributes := .ofList [("id", .short "d:id")]
  identifiers := .empty
  values := .empty
  paths := .empty
  fragments := .ofList [("e", .node "e" (.ofList [("id", "1")]) none [])]
  parts := .empty

def unnamed : Fragment where
  name := "e"
  root := .node (.plain "e") [(⟨some "d", "id", some ""⟩, ⟨[.literal "1"]⟩)] none []

def unnamedDocument : Tree where
  nodes := #[⟨.document, none, [1]⟩,
    ⟨.element ⟨.plain "e", [⟨⟨some "d", "id", some ""⟩, "1"⟩], []⟩, some 0, []⟩]
  header := some documentHeader

theorem compile_emptyNamespace :
    Registry.compile emptyNamespace = .ok emptyNamespace.resolved := by
  rw [Registry.compile_eq_ok_iff]
  refine ⟨?_, rfl⟩
  cbv

theorem fragment?_emptyNamespace :
    emptyNamespace.resolved.fragment? "e" = some unnamed := by
  cbv

theorem instantiateDocument_unnamed :
    unnamed.instantiateDocument (fun _ => none) emptyNamespace.resolved =
      .ok unnamedDocument := by
  cbv

theorem write_unnamedDocument :
    write unnamedDocument = headerText documentHeader ++ "<e d:id=\"1\"/>" := by
  have content : contentsText [] unnamedDocument.content = "<e d:id=\"1\"/>" := by cbv
  rw [← content]
  rfl

theorem read_unnamedDocument :
    read (write unnamedDocument) = .error (.undeclaredPrefix "d" "e") := by
  have hbuild : ∀ whole, build whole [] ⟨Tree.empty, []⟩ (write unnamedDocument).toList =
      .error (.undeclaredPrefix "d" "e") := by
    intro whole
    rw [write_unnamedDocument, String.toList_append,
      build_headerText quotable_documentHeader.1 quotable_documentHeader.2]
    cbv
  rw [Xml.read, build_withoutByteOrderMark rfl, hbuild]

/-- The prefix is written without a declaration, and the document cannot be read. -/
theorem unreadable_of_emptyNamespace :
    Registry.compile emptyNamespace = .ok emptyNamespace.resolved ∧
    emptyNamespace.resolved.fragment? "e" = some unnamed ∧
    unnamed.instantiateDocument (fun _ => none) emptyNamespace.resolved =
      .ok unnamedDocument ∧
    write unnamedDocument = headerText documentHeader ++ "<e d:id=\"1\"/>" ∧
    read (write unnamedDocument) = .error (.undeclaredPrefix "d" "e") :=
  ⟨compile_emptyNamespace, fragment?_emptyNamespace, instantiateDocument_unnamed,
    write_unnamedDocument, read_unnamedDocument⟩

/-- An attribute, an identifier and a text inside of a second element. -/
def notes : Registry.Document where
  metadata := ⟨"", none, none⟩
  namespaces := .ofList [("w", "urn:w"), ("r", "urn:r")]
  elements := .ofList [("note", .short "w:note"), ("line", .short "w:line")]
  attributes := .ofList [("id", .short "r:id"), ("kind", .short "kind")]
  identifiers := .ofList [("n", ⟨["id"], "n", none⟩)]
  values := .empty
  paths := .empty
  fragments := .ofList [("note", .node "note" (.ofList [("kind", "\x7b\x7bkind\x7d\x7d")]) none
    [.node "line" (.ofList [("id", "#\x7bn:a\x7d")]) (some "\x7b\x7btext\x7d\x7d") []])]
  parts := .empty

def note : Fragment where
  name := "note"
  root := .node ⟨some "w", "note", some "urn:w"⟩ [(.plain "kind", ⟨[.token "kind"]⟩)] none
    [.node ⟨some "w", "line", some "urn:w"⟩
      [(⟨some "r", "id", some "urn:r"⟩, ⟨[.identifier "n" "a"]⟩)] (some ⟨[.token "text"]⟩) []]

def noteDocument : Tree where
  nodes := #[⟨.document, none, [1]⟩,
    ⟨.element ⟨⟨some "w", "note", some "urn:w"⟩, [⟨.plain "kind", "<&\">"⟩], []⟩, some 0, [2]⟩,
    ⟨.element ⟨⟨some "w", "line", some "urn:w"⟩, [⟨⟨some "r", "id", some "urn:r"⟩, "n1"⟩], []⟩,
      some 1, [3]⟩,
    ⟨.text "<&\">", some 2, []⟩]
  header := some documentHeader

def noteElements : List (QName × List Attribute × String) :=
  [(⟨some "w", "note", some "urn:w"⟩, [⟨.plain "kind", "<&\">"⟩], "<&\">"),
    (⟨some "w", "line", some "urn:w"⟩, [⟨⟨some "r", "id", some "urn:r"⟩, "n1"⟩], "<&\">")]

theorem compile_notes : Registry.compile notes = .ok notes.resolved := by
  rw [Registry.compile_eq_ok_iff]
  refine ⟨?_, rfl⟩
  cbv

theorem fragment?_notes : notes.resolved.fragment? "note" = some note := by
  cbv

theorem instantiateDocument_note :
    note.instantiateDocument (fun _ => some "<&\">") notes.resolved = .ok noteDocument := by
  cbv

theorem plain_unnamed : unnamed.root.Each PlainNames := by
  refine ⟨⟨isName_of_all (by decide) (by decide), ?_⟩, trivial⟩
  simpa using isName_of_all (by decide) (by decide)

theorem plain_note : note.root.Each PlainNames := by
  refine ⟨⟨isName_of_all (by decide) (by decide), ?_⟩,
    ⟨⟨isName_of_all (by decide) (by decide), ?_⟩, trivial⟩, trivial⟩
  all_goals simpa using isName_of_all (by decide) (by decide)

theorem readable_note : note.root.Each ReadableNames := by
  refine ⟨⟨⟨?_, by decide, by decide⟩, by decide, by decide⟩,
    ⟨⟨⟨?_, by decide, by decide⟩, by decide, by decide⟩, trivial⟩, trivial⟩
  all_goals simp [QName.qualified]

/-- Markup in an attribute and in a text is read back. A fragment that cannot be read back has names
that are not readable. -/
theorem read_back_iff_readable_notes :
    (∃ v, read (write noteDocument) = .ok v ∧ v.header = some documentHeader ∧
      Content.elementsAll v.content = noteElements) ∧
    ¬ unnamed.root.Each ReadableNames := by
  refine ⟨?_, ?_⟩
  · have elements : Content.elementsAll noteDocument.content = noteElements := by
      cbv
    rw [← elements]
    exact (read_back_iff_readable compile_notes fragment?_notes plain_note
      instantiateDocument_note).2 readable_note
  · intro readable
    obtain ⟨v, hread, _⟩ := (read_back_iff_readable compile_emptyNamespace fragment?_emptyNamespace
      plain_unnamed instantiateDocument_unnamed).2 readable
    cases read_unnamedDocument.symm.trans hread

end Fragment

end PartPatch
