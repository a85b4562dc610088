import PartPatch.Proofs.Xml.Element
import PartPatch.Proofs.Xml.Event
import PartPatch.Proofs.Xml.Growth
import PartPatch.Proofs.Xml.Prefix

/-!
# Reading what was written

A written content is read as its normal form, provided that its names are plain and resolved where
they stand and that no comment holds the end of a comment. Texts are taken up together with the text
in front of them, which is what a run of characters is read as.
-/

namespace PartPatch

set_option autoImplicit false

/-- The first character of the name is not taken for that of other markup. -/
def Element.Opens (e : Element) : Prop :=
  ∀ c ∈ e.name.qualified.toList.head?, c ≠ '!' ∧ c ≠ '?'

/-- The tag of the element is read as the element in the scope. -/
structure Element.Legible (scope : Xml.Scope) (e : Element) : Prop where
  resolved : e.Resolved scope
  plain : e.Plain
  opens : e.Opens

namespace Content

mutual

def Legible (scope : Xml.Scope) : Content → Prop
  | .element e children => e.Legible scope ∧ LegibleAll (e.declarations :: scope) children
  | .text _ => True
  | .comment s => ¬ ['-', '-', '>'] <:+: s.toList

def LegibleAll (scope : Xml.Scope) : List Content → Prop
  | [] => True
  | c :: cs => Legible scope c ∧ LegibleAll scope cs

end

end Content

namespace Xml

variable {scope : Scope} {e : Element} {s r rest : List Char} {event : Event}
  {whole : List Char} {opened opened' : List (List Char)} {b b' b'' : Building}

/-! ## Tags -/

theorem writtenDeclarations_of_resolved (h : e.Resolved scope) :
    writtenDeclarations scope e = e.declarations := by
  refine writtenDeclarations_of_means (fun a ha hq => (h.bound a ha hq).1) ?_
  intro q hq
  rw [Element.names, List.mem_cons, List.mem_filter] at hq
  rcases hq with rfl | ⟨hq, hqualifier⟩
  · exact (elementNamespace_eq_ok h.namespaceUri).symm
  · obtain ⟨a, ha, rfl⟩ := List.mem_map.1 hq
    rw [Means, (h.bound a ha hqualifier).2]

/-- The end of a tag is neither a slash nor part of a name. -/
theorem getLast?_tagInside {name : List Char} (hname : IsName name)
    (pairs : List (String × String)) : (tagInside name pairs).getLast? ≠ some '/' := by
  rcases List.eq_nil_or_concat' pairs with rfl | ⟨pairs, pair, rfl⟩
  · intro hlast
    have hmem := List.mem_of_getLast? hlast
    rw [tagInside, List.map_nil, List.flatMap_nil, List.append_nil] at hmem
    exact (inName_iff.1 (hname.plain _ hmem)).2.2.2.2.2.1 rfl
  · have hsplit : tagInside name (pairs ++ [pair]) = (tagInside name pairs ++
        ' ' :: ((rawAttribute pair).name ++ '=' :: '\x22' :: (rawAttribute pair).value)) ++
          ['\x22'] := by
      simp [tagInside, RawAttribute.text]
    rw [hsplit, List.getLast?_concat]
    decide

theorem cuts_tagText (plain : e.Plain) (h : Cuts none r s rest) :
    Cuts none ((tagText e.declarations e).toList ++ r)
      ((tagText e.declarations e).toList ++ s) rest := by
  have hpairs : ∀ a ∈ e.pairs.map rawAttribute, a.Plain := by
    intro a ha
    obtain ⟨pair, hpair, rfl⟩ := List.mem_map.1 ha
    exact plain_rawAttribute (isName_of_mem_pairs plain pair hpair)
  rw [toList_tagText, tagInside, List.append_assoc, List.append_assoc]
  exact .tag plain.name hpairs h

theorem opens_tagText (plain : e.Plain) (opens : e.Opens) (r : List Char) :
    (tagText e.declarations e).toList ++ r ≠ [] ∧
      ∀ c ∈ ((tagText e.declarations e).toList ++ r).head?, c ≠ '!' ∧ c ≠ '?' ∧ c ≠ '/' := by
  obtain ⟨c, name, hname⟩ := List.exists_cons_of_ne_nil plain.name.ne_nil
  have hc := opens c (by rw [hname]; rfl)
  have hplain := inName_iff.1 (plain.name.plain c (by rw [hname]; exact List.mem_cons_self))
  rw [toList_tagText, tagInside, hname, List.cons_append, List.cons_append]
  refine ⟨List.cons_ne_nil _ _, ?_⟩
  rintro _ ⟨⟩
  exact ⟨hc.1, hc.2, hplain.2.2.2.2.2.1⟩

theorem reads_startTag (plain : e.Plain) (opens : e.Opens) (rest : List Char) :
    Reads ('<' :: ((tagText e.declarations e).toList ++ '>' :: rest))
      (.startTag (tagText e.declarations e).toList) rest := by
  obtain ⟨hne, hhead⟩ := opens_tagText plain opens ('>' :: rest)
  have hcut := cuts_tagText plain (cuts_close rest)
  have hread := reads_tag hne hhead hcut
  have hlast := getLast?_tagInside plain.name e.pairs
  rw [← toList_tagText] at hlast
  rwa [List.append_nil, tagEvent, if_neg hlast] at hread

theorem reads_emptyTag (plain : e.Plain) (opens : e.Opens) (rest : List Char) :
    Reads ('<' :: ((tagText e.declarations e).toList ++ '/' :: '>' :: rest))
      (.emptyTag (tagText e.declarations e).toList) rest := by
  obtain ⟨hne, hhead⟩ := opens_tagText plain opens ('/' :: '>' :: rest)
  have hslash : Cuts none ('/' :: '>' :: rest) ['/'] rest :=
    .cons (fun _ => by decide) (cuts_close rest)
  have hread := reads_tag hne hhead (cuts_tagText plain hslash)
  rw [tagEvent, List.getLast?_concat, if_pos rfl] at hread
  simpa using hread

/-! ## One event after the other -/

theorem build_of_reads (h : Reads s event rest) (hmatch : matchTags opened event = .ok opened')
    (hstep : b.step event = .ok b') : build whole opened b s = build whole opened' b' rest := by
  obtain ⟨c, t, hlt, rfl, hread⟩ := h
  have htake : take opened b event = .ok (opened', b') := by
    rw [take, hmatch]
    simp only [hstep]
    rfl
  rw [build, hread]
  simp only [htake]

/-- Whatever follows, the text is taken in. -/
def Consumes (b : Building) (s : List Char) (b' : Building) : Prop :=
  ∀ whole opened rest, build whole opened b (s ++ rest) = build whole opened b' rest

/-- The text is taken in unless more of a text follows. -/
def Yields (b : Building) (s : List Char) (b' : Building) : Prop :=
  ∀ whole opened rest, Stops rest →
    build whole opened b (s ++ rest) = build whole opened b' rest

namespace Building

/-- What is kept of contents at the current node: below the document texts are dropped. -/
def keeps (b : Building) (cs : List Content) : List Content :=
  if b.frames = [] then cs.filter fun c => !c.isText else cs

theorem keeps_append (b : Building) (cs ds : List Content) :
    b.keeps (cs ++ ds) = b.keeps cs ++ b.keeps ds := by
  unfold keeps
  split
  · exact List.filter_append ..
  · rfl

theorem keeps_congr (h : b'.frames = b.frames) (cs : List Content) : b'.keeps cs = b.keeps cs := by
  rw [keeps, keeps, h]

/-- A text in front of something else is kept by itself. -/
theorem keeps_prepend_text (b : Building) {c : Content} (hc : c.isText = false) (s : String)
    (cs : List Content) :
    b.keeps (Content.prepend (.text s) (Content.prepend c.normal cs)) =
      b.keeps (Content.prepend (.text s) []) ++ ([c.normal] ++ b.keeps cs) := by
  have hnormal : c.normal.isText = false := (Content.isText_normal c).trans hc
  have hsingle : b.keeps [c.normal] = [c.normal] := by
    unfold keeps
    split
    · exact List.filter_cons_of_pos (by simp [hnormal])
    · rfl
  rw [Content.prepend_of_not_text hnormal, Content.prepend_text_cons s hnormal, keeps_append,
    ← List.singleton_append (l := cs), keeps_append, hsingle]

end Building

/-- A text is read as a text, or as nothing if it is empty or outside the root. -/
theorem yields_text (sound : b.Sound) (s : String) :
    ∃ b', b.Grows b' (b.keeps (Content.prepend (.text s) [])) ∧
      Yields b (escapeText s).toList b' := by
  by_cases hs : s = ""
  · refine ⟨b, ?_, ?_⟩
    · rw [hs, Content.prepend_empty, Building.keeps]
      split <;> exact .refl sound
    · rw [hs]
      exact fun _ _ _ _ => rfl
  have hne : (escapeText s).toList ≠ [] := by
    intro hnil
    have hread := unescape?_escapeText s
    rw [hnil, unescape?, Option.some.injEq, eq_comm, String.toList_eq_nil_iff] at hread
    exact hs hread
  have reads : ∀ rest, Stops rest → Reads ((escapeText s).toList ++ rest)
      (.text (escapeText s).toList) rest :=
    fun rest hrest => reads_text hne (fun c hc => ne_of_mem_escapeText hc) hrest
  have hcontent : Content.prepend (.text s) [] = [.text s] := by
    rw [Content.prepend, if_neg hs]
    rintro _ _ ⟨⟩
  rw [hcontent, Building.keeps]
  cases hframes : b.frames with
  | nil =>
    have hstep : b.step (.text (escapeText s).toList) = .ok b := by
      simp only [Building.step, hframes]
    refine ⟨b, .refl sound, ?_⟩
    intro whole opened rest hrest
    exact build_of_reads (reads rest hrest) rfl hstep
  | cons frame frames =>
    obtain ⟨b', hadd, added⟩ := Building.exists_added sound (.text s) (by simp)
      (fun hnil => by rw [hframes] at hnil; cases hnil)
    have hstep : b.step (.text (escapeText s).toList) = .ok b' := by
      simp only [Building.step, hframes, unescape?_escapeText, String.ofList_toList, hadd]
      rfl
    have hgrows := added.grows_leaf sound
    rw [added.sound.wellFormed.contentAt_eq, added.kind?_new] at hgrows
    refine ⟨b', hgrows, ?_⟩
    intro whole opened rest hrest
    exact build_of_reads (reads rest hrest) rfl hstep

theorem yields_comment (sound : b.Sound) {s : String} (hs : ¬ ['-', '-', '>'] <:+: s.toList) :
    ∃ b', b.Grows b' [.comment s] ∧
      Consumes b ('<' :: '!' :: '-' :: '-' :: (s.toList ++ ['-', '-', '>'])) b' := by
  obtain ⟨b', hadd, added⟩ := Building.exists_added sound (.comment s) (by simp)
    (fun _ helement => by cases helement)
  have hstep : b.step (.comment s.toList) = .ok b' := by
    simp only [Building.step, String.ofList_toList, hadd]
    rfl
  have hgrows := added.grows_leaf sound
  rw [added.sound.wellFormed.contentAt_eq, added.kind?_new] at hgrows
  refine ⟨b', hgrows, ?_⟩
  intro whole opened rest
  have hread := reads_comment hs rest
  rw [List.cons_append, List.cons_append, List.cons_append, List.cons_append, List.append_assoc]
  exact build_of_reads hread rfl hstep

/-- The element that the tag stands for is added below the current node. -/
theorem exists_element (sound : b.Sound) (h : e.Legible b.scope)
    (room : b.frames = [] → b.tree.childElements Tree.documentId = []) :
    ∃ b', b.Added (.element e) b' ∧
      b.step (.emptyTag (tagText e.declarations e).toList) = .ok b' ∧
      b.step (.startTag (tagText e.declarations e).toList) =
        .ok ⟨b'.tree, ⟨b.tree.size, e.declarations⟩ :: b.frames⟩ := by
  obtain ⟨b', hadd, added⟩ := Building.exists_added sound (.element e) (by simp)
    (fun hframes _ => room hframes)
  have hread := readElement_tagText h.resolved h.plain
  refine ⟨b', added, ?_, ?_⟩
  · simp only [Building.step, hread]
    exact bind_eq_ok_iff.2 ⟨e, rfl, bind_eq_ok_iff.2 ⟨_, hadd, rfl⟩⟩
  · simp only [Building.step, hread, ← added.frames]
    exact bind_eq_ok_iff.2 ⟨e, rfl, bind_eq_ok_iff.2 ⟨_, hadd, rfl⟩⟩

namespace Building

/-- The contents can go below the current node without making a second root. -/
def Room (b : Building) (cs : List Content) : Prop :=
  b.frames = [] → (b.tree.contentBelow b.current ++ cs).countP Content.isElement ≤ 1

variable {cs ds rest : List Content}

theorem Room.left (room : b.Room (cs ++ ds)) : b.Room cs := by
  intro hframes
  have hcount := room hframes
  simp only [List.countP_append] at hcount ⊢
  omega

theorem Room.childElements (sound : b.Sound) (room : b.Room cs) {c : Content} (hc : c ∈ cs)
    (helement : c.isElement = true) (hframes : b.frames = []) :
    b.tree.childElements Tree.documentId = [] := by
  have hcount := room hframes
  have hpos : 0 < cs.countP Content.isElement := List.countP_pos_iff.2 ⟨c, hc, helement⟩
  rw [List.countP_append, sound.wellFormed.countP_contentBelow, current, hframes] at hcount
  rw [← List.length_eq_zero_iff]
  change (b.tree.childElements Tree.documentId).length + _ ≤ 1 at hcount
  omega

theorem Grows.room (h : b.Grows b' ds) (room : b.Room (cs ++ rest))
    (same : ds.countP Content.isElement = cs.countP Content.isElement) : b'.Room rest := by
  intro hframes
  have hcount := room (h.frames.symm.trans hframes)
  rw [current_congr h.frames, h.content]
  simp only [List.countP_append] at hcount ⊢
  omega

theorem scope_congr (h : b'.frames = b.frames) : b'.scope = b.scope := by
  rw [scope, scope, h]

end Building

theorem countP_keeps_text (b : Building) (s : String) :
    (b.keeps (Content.prepend (.text s) [])).countP Content.isElement = 0 := by
  have htext : ∀ c ∈ Content.prepend (.text s) [], ¬ c.isElement = true := by
    intro c hc
    rw [Content.prepend] at hc
    · split at hc
      · cases hc
      · rw [List.mem_singleton.1 hc]
        exact Bool.false_ne_true
    · rintro _ _ ⟨⟩
  rw [List.countP_eq_zero]
  intro c hc
  refine htext c ?_
  rw [Building.keeps] at hc
  split at hc
  · exact List.mem_of_mem_filter hc
  · exact hc

theorem toList_emptyElement (scope : Scope) (e : Element) :
    (contentText scope (.element e [])).toList =
      '<' :: ((tagText (writtenDeclarations scope e) e).toList ++ ['/', '>']) := by
  rw [contentText]
  simp

theorem toList_element (scope : Scope) (e : Element) (c : Content) (cs : List Content) :
    (contentText scope (.element e (c :: cs))).toList =
      '<' :: ((tagText (writtenDeclarations scope e) e).toList ++ '>' ::
        ((contentsText (writtenDeclarations scope e :: scope) (c :: cs)).toList ++
          '<' :: '/' :: (e.name.qualified.toList ++ ['>']))) := by
  rw [contentText, contentsText]
  simp

theorem toList_comment (s : String) :
    (contentText scope (.comment s)).toList =
      '<' :: '!' :: '-' :: '-' :: (s.toList ++ ['-', '-', '>']) := by
  rw [contentText]
  simp

theorem begins_contentText (scope : Scope) {c : Content} (hc : c.isText = false) :
    ∃ r, (contentText scope c).toList = '<' :: r := by
  match c with
  | .text s => cases hc
  | .comment s => exact ⟨_, toList_comment s⟩
  | .element e [] =>
    rw [contentText, String.append_assoc, String.toList_append]
    exact ⟨_, rfl⟩
  | .element e (c :: cs) =>
    rw [contentText]
    simp only [String.append_assoc, String.toList_append (s := "<")]
    exact ⟨_, rfl⟩

mutual

theorem yields_content : ∀ (c : Content) {b : Building}, c.isText = false → b.Sound →
    c.Legible b.scope → b.Room [c] →
    ∃ b', b.Grows b' [c.normal] ∧ Consumes b (contentText b.scope c).toList b'
  | .text s, b, htext, _, _, _ => by cases htext
  | .comment s, b, _, sound, legible, _ => by
    rw [toList_comment]
    exact yields_comment sound legible
  | .element e [], b, _, sound, legible, room => by
    rw [Content.Legible] at legible
    obtain ⟨b', added, hstep, _⟩ := exists_element sound legible.1
      (room.childElements sound List.mem_cons_self rfl)
    have hgrows := added.grows_element sound (.refl added.sound_open)
    rw [← added.frames] at hgrows
    refine ⟨b', hgrows, ?_⟩
    intro whole opened rest
    rw [toList_emptyElement, writtenDeclarations_of_resolved legible.1.resolved, List.cons_append,
      List.append_assoc]
    exact build_of_reads (reads_emptyTag legible.1.plain legible.1.opens rest) rfl hstep
  | .element e (c :: cs), b, _, sound, legible, room => by
    rw [Content.Legible] at legible
    obtain ⟨b₁, added, _, hstep⟩ := exists_element sound legible.1
      (room.childElements sound List.mem_cons_self rfl)
    obtain ⟨b₂, hgrows, hyields⟩ := yields_contents (c :: cs) "" added.sound_open legible.2
      (fun hnil => by cases hnil)
    rw [Content.prepend_empty, Building.keeps, if_neg (List.cons_ne_nil _ _)] at hgrows
    refine ⟨_, added.grows_element sound hgrows, ?_⟩
    intro whole opened rest
    have hclose : b₂.step (.endTag e.name.qualified.toList) = .ok ⟨b₂.tree, b.frames⟩ := by
      simp only [Building.step, hgrows.frames]
    have hname : tagName (tagText e.declarations e).toList = e.name.qualified.toList := by
      rw [toList_tagText, tagName_tagInside legible.1.plain.name]
    have hstart : ∀ r, build whole opened b
        ('<' :: ((tagText e.declarations e).toList ++ '>' :: r)) =
          build whole (e.name.qualified.toList :: opened)
            ⟨b₁.tree, ⟨b.tree.size, e.declarations⟩ :: b.frames⟩ r := by
      intro r
      rw [← hname]
      exact build_of_reads (reads_startTag legible.1.plain legible.1.opens r) rfl hstep
    have hend : build whole (e.name.qualified.toList :: opened) b₂
        ('<' :: '/' :: (e.name.qualified.toList ++ '>' :: rest)) =
          build whole opened ⟨b₂.tree, b.frames⟩ rest :=
      build_of_reads (reads_endTag legible.1.plain.name rest) (if_pos rfl) hclose
    have hchildren := hyields whole (e.name.qualified.toList :: opened)
      ('<' :: '/' :: (e.name.qualified.toList ++ '>' :: rest)) (by rintro _ ⟨⟩; rfl)
    rw [toList_element, writtenDeclarations_of_resolved legible.1.resolved]
    simp only [List.cons_append, List.append_assoc, List.nil_append]
    rw [hstart]
    exact hchildren.trans hend

theorem yields_contents : ∀ (cs : List Content) {b : Building} (pending : String), b.Sound →
    Content.LegibleAll b.scope cs → b.Room cs →
    ∃ b', b.Grows b' (b.keeps (Content.prepend (.text pending) (Content.normalAll cs))) ∧
      Yields b ((escapeText pending).toList ++ (contentsText b.scope cs).toList) b'
  | [], b, pending, sound, _, _ => by
    rw [contentsText, Content.normalAll]
    simpa using yields_text sound pending
  | c :: cs, b, pending, sound, legible, room => by
    rw [Content.LegibleAll] at legible
    rw [Content.normalAll, contentsText, String.toList_append]
    cases hc : c.isText with
    | true =>
      obtain ⟨s, rfl⟩ := Content.isText_iff.1 hc
      have whole : b.Room ([.text s] ++ cs) := room
      have hroom := (Building.Grows.refl sound).room whole rfl
      obtain ⟨b', hgrows, hyields⟩ := yields_contents cs (pending ++ s) sound legible.2 hroom
      refine ⟨b', ?_, ?_⟩
      · rw [Content.normal, Content.prepend_prepend]
        exact hgrows
      · rw [contentText, ← List.append_assoc, ← String.toList_append, ← escapeText_append]
        exact hyields
    | false =>
      obtain ⟨b₁, grows₁, yields₁⟩ := yields_text sound pending
      have scope₁ := Building.scope_congr grows₁.frames
      have whole : b.Room ([] ++ ([c] ++ cs)) := room
      have room₁ := grows₁.room whole (countP_keeps_text b pending)
      obtain ⟨b₂, grows₂, consumes₂⟩ := yields_content c hc grows₁.sound
        (by rw [scope₁]; exact legible.1) room₁.left
      have scope₂ := (Building.scope_congr grows₂.frames).trans scope₁
      have room₂ : b₂.Room cs := grows₂.room room₁ (by simp [Content.isElement_normal])
      obtain ⟨b₃, grows₃, yields₃⟩ := yields_contents cs "" grows₂.sound
        (by rw [scope₂]; exact legible.2) room₂
      refine ⟨b₃, ?_, ?_⟩
      · have frames₂ : b₂.frames = b.frames := grows₂.frames.trans grows₁.frames
        rw [Content.prepend_empty, Building.keeps_congr frames₂] at grows₃
        rw [b.keeps_prepend_text hc]
        exact grows₁.trans (grows₂.trans grows₃)
      · intro whole opened rest hrest
        rw [scope₁] at consumes₂
        rw [scope₂] at yields₃
        rw [List.append_assoc, List.append_assoc, yields₁ whole opened _ ?_,
          consumes₂ whole opened]
        · exact yields₃ whole opened rest hrest
        · obtain ⟨r, hr⟩ := begins_contentText b.scope hc
          rw [hr]
          rintro _ ⟨⟩
          rfl

end

end Xml

end PartPatch
