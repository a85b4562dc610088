import Mathlib.Data.List.TakeWhile
import PartPatch.Proofs.Xml.Written

/-!
# Reading a written document

The header is read as it is written if its values hold neither a double quote nor the end of a
processing instruction. What stands between the header and the root is dropped.
-/

namespace PartPatch

set_option autoImplicit false

namespace Header

def values (h : Header) : List String :=
  h.version :: (h.encoding.toList ++ h.standalone.toList)

def attributes (h : Header) : List Xml.RawAttribute :=
  ⟨"version".toList, h.version.toList⟩ ::
    (h.encoding.toList.map (fun value => ⟨"encoding".toList, value.toList⟩) ++
      h.standalone.toList.map fun value => ⟨"standalone".toList, value.toList⟩)

/-- The values can stand in double quotes. -/
def Quotable (h : Header) : Prop :=
  ∀ value ∈ h.values, '\x22' ∉ value.toList

/-- No value ends the processing instruction that the header is. -/
def Closed (h : Header) : Prop :=
  ∀ value ∈ h.values, ¬ ['?', '>'] <:+: value.toList

end Header

namespace Xml

variable {h : Header} {b : Building}

/-! ## The header -/

theorem mem_attributes {a : RawAttribute} (ha : a ∈ h.attributes) :
    IsName a.name ∧ ∃ value ∈ h.values, a.value = value.toList := by
  have version : IsName "version".toList := isName_of_all (by decide) (by decide)
  have encoding : IsName "encoding".toList := isName_of_all (by decide) (by decide)
  have standalone : IsName "standalone".toList := isName_of_all (by decide) (by decide)
  simp only [Header.attributes, List.mem_cons, List.mem_append, List.mem_map] at ha
  rcases ha with rfl | ⟨value, hvalue, rfl⟩ | ⟨value, hvalue, rfl⟩
  · exact ⟨version, h.version, List.mem_cons_self, rfl⟩
  · exact ⟨encoding, value, List.mem_cons_of_mem _ (List.mem_append_left _ hvalue), rfl⟩
  · exact ⟨standalone, value, List.mem_cons_of_mem _ (List.mem_append_right _ hvalue), rfl⟩

theorem plain_attributes (quotable : h.Quotable) : ∀ a ∈ h.attributes, a.Plain := by
  intro a ha
  obtain ⟨hname, value, hvalue, e⟩ := mem_attributes ha
  refine ⟨hname, ?_⟩
  rw [e]
  exact quotable value hvalue

theorem not_infix_attributes (closed : h.Closed) :
    ¬ ['?', '>'] <:+: h.attributes.flatMap RawAttribute.text := by
  have hattributes : ∀ a ∈ h.attributes, ¬ ['?', '>'] <:+: a.name ∧ ¬ ['?', '>'] <:+: a.value := by
    intro a ha
    obtain ⟨hname, value, hvalue, e⟩ := mem_attributes ha
    refine ⟨?_, ?_⟩
    · intro inside
      exact (hname.outside '>' (inside.subset (by simp))).1 rfl
    · rw [e]
      exact closed value hvalue
  generalize h.attributes = attributes at hattributes
  induction attributes with
  | nil => simp
  | cons a attributes ih =>
    obtain ⟨hname, hvalue⟩ := hattributes a List.mem_cons_self
    have hrest := ih fun b hb => hattributes b (List.mem_cons_of_mem a hb)
    rw [List.flatMap_cons, RawAttribute.text_append]
    have hquoted := Text.not_infix_append_cons (c := '\x22') (by decide) hvalue hrest
    have hopen : ¬ ['?', '>'] <:+: '\x22' :: (a.value ++ '\x22' ::
        attributes.flatMap RawAttribute.text) :=
      Text.not_infix_append_cons (x := []) (by decide) (by decide) hquoted
    have hassigned := Text.not_infix_append_cons (c := '=') (by decide) hname hopen
    exact Text.not_infix_append_cons (x := []) (by decide) (by decide) hassigned

theorem findAttribute_text {attributes : List RawAttribute} (plain : ∀ a ∈ attributes, a.Plain)
    (name : List Char) : findAttribute name (attributes.flatMap RawAttribute.text) =
      .ok ((attributes.find? fun a => a.name = name).map RawAttribute.value) := by
  induction attributes with
  | nil =>
    rw [List.flatMap_nil, findAttribute, readAttribute_nil]
    rfl
  | cons a attributes ih =>
    obtain ⟨_, hread⟩ := readAttribute_text (plain a List.mem_cons_self)
      (attributes.flatMap RawAttribute.text)
    rw [List.flatMap_cons, findAttribute, hread]
    simp only
    by_cases ha : a.name = name
    · simp [ha]
    · rw [if_neg ha, List.find?_cons_of_neg (by simp [ha])]
      exact ih fun b hb => plain b (List.mem_cons_of_mem a hb)

theorem find?_attributes (h : Header) :
    (h.attributes.find? fun a => a.name = "encoding".toList).map RawAttribute.value =
        h.encoding.map String.toList ∧
      (h.attributes.find? fun a => a.name = "standalone".toList).map RawAttribute.value =
        h.standalone.map String.toList := by
  obtain ⟨version, encoding, standalone⟩ := h
  have hencoding : "version".toList ≠ "encoding".toList := by decide
  have hstandalone : "version".toList ≠ "standalone".toList := by decide
  have hdiffer : "encoding".toList ≠ "standalone".toList := by decide
  cases encoding <;> cases standalone <;>
    simp only [Header.attributes, Option.toList_none, Option.toList_some, List.map_cons,
      List.map_nil, List.nil_append, List.append_nil, List.cons_append, List.find?_cons,
      List.find?_nil, hencoding, hstandalone, hdiffer, hdiffer.symm, decide_true, decide_false,
      Option.map_some, Option.map_none, and_self]

theorem readHeader_attributes (quotable : h.Quotable) :
    readHeader (h.attributes.flatMap RawAttribute.text) = .ok h := by
  have plain := plain_attributes quotable
  obtain ⟨_, hread⟩ := readAttribute_text (plain _ List.mem_cons_self)
    (h.attributes.tail.flatMap RawAttribute.text)
  have hfirst : h.attributes.flatMap RawAttribute.text =
      RawAttribute.text ⟨"version".toList, h.version.toList⟩ ++
        h.attributes.tail.flatMap RawAttribute.text := rfl
  unfold readHeader
  rw [findAttribute_text plain, findAttribute_text plain, (find?_attributes h).1,
    (find?_attributes h).2, hfirst, hread]
  refine (if_neg fun hne => hne rfl).trans ?_
  have hback : ∀ o : Option String, (o.map String.toList).map String.ofList = o := by
    intro o
    cases o <;> simp
  refine bind_eq_ok_iff.2 ⟨_, rfl, bind_eq_ok_iff.2 ⟨_, rfl, ?_⟩⟩
  rw [hback, hback, String.ofList_toList]
  rfl

theorem toList_headerText (h : Header) :
    (headerText h).toList = '<' :: '?' :: 'x' :: 'm' :: 'l' ::
      (h.attributes.flatMap RawAttribute.text ++ ['?', '>', '\n']) := by
  have hversion : "<?xml version=\"".toList = '<' :: '?' :: 'x' :: 'm' :: 'l' ::
      ' ' :: ("version".toList ++ ['=', '\x22']) := by decide
  have hencoding : " encoding=\"".toList = ' ' :: ("encoding".toList ++ ['=', '\x22']) := by
    decide
  have hstandalone : " standalone=\"".toList =
      ' ' :: ("standalone".toList ++ ['=', '\x22']) := by decide
  obtain ⟨version, encoding, standalone⟩ := h
  unfold headerText Header.attributes
  cases encoding <;> cases standalone <;>
    simp only [String.toList_append, hversion, hencoding, hstandalone] <;>
    simp [RawAttribute.text]

/-! ## The document -/

/-- Outside the root a character of a text makes no difference. -/
theorem build_cons (hframes : b.frames = []) {c : Char} (hc : c ≠ '<') (whole : List Char)
    (opened : List (List Char)) (s : List Char) :
    build whole opened b (c :: s) = build whole opened b s := by
  have skipped : ∀ d r rest, d ≠ '<' → Stops rest → (∀ d ∈ r, d ≠ '<') →
      build whole opened b (d :: (r ++ rest)) = build whole opened b rest := by
    intro d r rest hd stops plain
    have hread : Reads (d :: r ++ rest) (.text (d :: r)) rest := by
      refine reads_text (List.cons_ne_nil d r) ?_ stops
      rw [List.forall_mem_cons]
      exact ⟨hd, plain⟩
    have hstep : b.step (.text (d :: r)) = .ok b := by
      simp only [Building.step, hframes]
    exact build_of_reads hread rfl hstep
  have hsplit := List.takeWhile_append_dropWhile (p := (· != '<')) (l := s)
  have plain : ∀ d ∈ s.takeWhile (· != '<'), d ≠ '<' := by
    intro d hd
    simpa using List.mem_takeWhile_imp hd
  have stops : Stops (s.dropWhile (· != '<')) := by
    intro d hd
    have hnot := List.head?_dropWhile_not (· != '<') s
    rw [Option.mem_def.1 hd] at hnot
    simpa using hnot
  rw [← hsplit, skipped c _ _ hc stops plain]
  cases hrun : s.takeWhile (· != '<') with
  | nil => rfl
  | cons d r =>
    rw [hrun, List.forall_mem_cons] at plain
    exact (skipped d r _ plain.1 stops plain.2).symm

theorem build_withoutByteOrderMark (hframes : b.frames = []) (whole : List Char)
    (opened : List (List Char)) (s : List Char) :
    build whole opened b (withoutByteOrderMark s) = build whole opened b s := by
  unfold withoutByteOrderMark
  split
  · exact (build_cons hframes (by decide) whole opened _).symm
  · rfl

theorem build_headerText (quotable : h.Quotable) (closed : h.Closed) (whole rest : List Char) :
    build whole [] ⟨Tree.empty, []⟩ ((headerText h).toList ++ rest) =
      build whole [] ⟨{ Tree.empty with header := some h }, []⟩ ('\n' :: rest) := by
  have hread := reads_header (not_infix_attributes closed) ⟨' ', _, rfl, rfl⟩ ('\n' :: rest)
  have hstep : (⟨Tree.empty, []⟩ : Building).step
      (.header (h.attributes.flatMap RawAttribute.text)) =
        .ok ⟨{ Tree.empty with header := some h }, []⟩ := by
    simp only [Building.step, readHeader_attributes quotable]
  have hbuild : build whole [] _ _ = build whole [] _ _ := build_of_reads hread rfl hstep
  rw [toList_headerText]
  simpa using hbuild

/-- The header has been read, and what is left begins with a text that is dropped. -/
theorem exists_headed (u : Tree)
    (header : ∀ h, u.header = some h → h.Quotable ∧ h.Closed) :
    ∃ (b : Building) (pending : String), b.Sound ∧ b.frames = [] ∧ b.tree.header = u.header ∧
      b.tree.content = [] ∧ ∀ whole, build whole [] ⟨Tree.empty, []⟩ (write u).toList =
        build whole [] b ((escapeText pending).toList ++ (contentsText [] u.content).toList) := by
  have noContent : ∀ header, ({ Tree.empty with header } : Tree).content = [] := by
    intro header
    rw [Tree.content, Tree.contentBelow_eq]
    exact congrArg (List.flatMap _) (Tree.children_empty Tree.documentId)
  unfold write
  cases hheader : u.header with
  | none =>
    refine ⟨⟨Tree.empty, []⟩, "", ⟨Tree.wellFormed_empty, fun _ h => by cases h⟩, rfl, rfl,
      noContent none, ?_⟩
    intro whole
    rw [String.empty_append]
    rfl
  | some h =>
    obtain ⟨quotable, closed⟩ := header h hheader
    refine ⟨⟨{ Tree.empty with header := some h }, []⟩, "\n",
      ⟨Tree.wellFormed_empty.withHeader _, fun _ h => by cases h⟩, rfl, rfl, noContent _, ?_⟩
    intro whole
    have hnewline : (escapeText "\n").toList = ['\n'] := by decide
    rw [String.toList_append, hnewline]
    exact build_headerText quotable closed whole _

theorem read_of_build {source : String} {t : Tree}
    (hbuild : ∀ whole, build whole [] ⟨Tree.empty, []⟩ source.toList = .ok ⟨t, []⟩)
    (hroot : t.root?.isSome = true) : read source = .ok t := by
  rw [read, build_withoutByteOrderMark rfl, hbuild]
  exact if_pos hroot

/-- A written document is read as its normal form. -/
theorem read_write_of_legible {u : Tree} (legible : Content.LegibleAll [] u.content)
    (root : u.content.countP Content.isElement = 1)
    (header : ∀ h, u.header = some h → h.Quotable ∧ h.Closed) :
    ∃ v, read (write u) = .ok v ∧ v.header = u.header ∧
      v.content = Content.normalDocument u.content := by
  obtain ⟨b, pending, sound, hframes, hheader, hempty, hstart⟩ := exists_headed u header
  have hscope : b.scope = [] := by
    rw [Building.scope, hframes]
    rfl
  have hcurrent : b.current = Tree.documentId := by
    rw [Building.current, hframes]
  have hcontent : b.tree.contentBelow b.current = [] := by
    rw [hcurrent]
    exact hempty
  have room : b.Room u.content := by
    intro _
    rw [hcontent, List.nil_append, root]
  obtain ⟨b', hgrows, hyields⟩ := yields_contents u.content pending sound
    (by rw [hscope]; exact legible) room
  have hframes' : b'.frames = [] := hgrows.frames.trans hframes
  have hv : b'.tree.content = Content.normalDocument u.content := by
    have hall := hgrows.content
    rwa [hcontent, hcurrent, List.nil_append, Building.keeps, if_pos hframes,
      Content.filter_prepend_text] at hall
  have hroot : b'.tree.root?.isSome = true := by
    have hcount := hgrows.sound.wellFormed.countP_contentBelow Tree.documentId
    rw [← Tree.content, hv, Content.countP_normalDocument, root] at hcount
    obtain ⟨x, hx⟩ := List.length_eq_one_iff.1 hcount.symm
    rw [Tree.root?, hx]
    rfl
  have hbuild : ∀ whole, build whole [] ⟨Tree.empty, []⟩ (write u).toList = .ok b' := by
    intro whole
    have hend := hyields whole [] [] (by rintro _ ⟨⟩)
    rw [hscope, List.append_nil] at hend
    rw [hstart, hend, build]
  obtain ⟨v, frames⟩ := b'
  cases hframes'
  exact ⟨v, read_of_build hbuild hroot, hgrows.header.trans hheader, hv⟩

end Xml

end PartPatch
