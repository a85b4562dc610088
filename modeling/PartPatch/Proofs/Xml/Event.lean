import PartPatch.Proofs.Xml.Tag

/-!
# Events of a written text

Each piece of markup that is written is read as the event it stands for, whatever follows it. What a
read event holds can be written again without being taken for other markup.
-/

namespace PartPatch.Xml

set_option autoImplicit false

variable {s inside rest name : List Char} {event : Event} {c : Char}

/-- The text begins with the markup of an event, behind which `rest` stands. -/
def Reads (s : List Char) (event : Event) (rest : List Char) : Prop :=
  ∃ c t h, s = c :: t ∧ readEvent c t = .ok (event, ⟨rest, h⟩)

/-- The text is over, or markup begins. -/
def Stops (s : List Char) : Prop :=
  ∀ c ∈ s.head?, c = '<'

theorem reads_text (hs : s ≠ []) (plain : ∀ c ∈ s, c ≠ '<') (stops : Stops rest) :
    Reads (s ++ rest) (.text s) rest := by
  obtain ⟨c, s, rfl⟩ := List.exists_cons_of_ne_nil hs
  have hplain : ∀ d ∈ s, (d != '<') = true := by
    intro d hd
    simpa using plain d (List.mem_cons_of_mem c hd)
  have hspan : (s ++ rest).takeWhile (· != '<') = s ∧ (s ++ rest).dropWhile (· != '<') = rest := by
    rw [List.takeWhile_append_of_pos hplain, List.dropWhile_append_of_pos hplain]
    cases rest with
    | nil => simp
    | cons d rest =>
      have hd : d = '<' := stops d rfl
      simp [hd]
  have hc : c ≠ '<' := plain c List.mem_cons_self
  have hread : readEvent c (s ++ rest) = .ok (readText c (s ++ rest)) := by
    rw [readEvent, if_neg hc]
  refine ⟨c, s ++ rest, ?_, rfl, ?_⟩
  · rw [List.length_cons, List.length_append]
    omega
  · rw [hread, readText]
    simp only [hspan]

/-- What follows the opening bracket decides on the event. -/
theorem reads_markup (h : ∃ h, readMarkup s = .ok (event, ⟨rest, h⟩)) :
    Reads ('<' :: s) event rest := by
  obtain ⟨hlt, hread⟩ := h
  refine ⟨'<', s, Text.length_lt_cons_of_lt hlt, rfl, ?_⟩
  rw [readEvent, if_pos rfl, hread]
  rfl

/-- A slash at the end makes a tag an empty one. -/
def tagEvent (inside : List Char) : Event :=
  if inside.getLast? = some '/' then .emptyTag inside.dropLast else .startTag inside

theorem readMarkup_of_cutTag? (hc : c ≠ '!' ∧ c ≠ '?' ∧ c ≠ '/') {r : Shorter (c :: s)}
    (h : cutTag? none (c :: s) = some (inside, r)) :
    readMarkup (c :: s) = .ok (tagEvent inside, r) := by
  rw [readMarkup]
  · by_cases hlast : inside.getLast? = some '/'
    · rw [tagEvent, if_pos hlast]
      simp only [h, hlast]
    · rw [tagEvent, if_neg hlast]
      simp only [h]
  · rintro ⟨⟩
  · rintro t ⟨⟩
    exact hc.1 rfl
  · rintro t ⟨⟩
    exact hc.2.1 rfl
  · rintro t ⟨⟩
    exact hc.2.2 rfl

theorem reads_tag (hs : s ≠ []) (hc : ∀ c ∈ s.head?, c ≠ '!' ∧ c ≠ '?' ∧ c ≠ '/')
    (h : Cuts none s inside rest) : Reads ('<' :: s) (tagEvent inside) rest := by
  obtain ⟨c, s, rfl⟩ := List.exists_cons_of_ne_nil hs
  obtain ⟨hlt, hcut⟩ := h
  exact reads_markup ⟨hlt, readMarkup_of_cutTag? (hc c rfl) hcut⟩

theorem endTagName_of_isName (hname : IsName name) : endTagName name = name := by
  rcases List.eq_nil_or_concat' name with rfl | ⟨s, c, rfl⟩
  · rfl
  · have hspace : isSpace c = false := (inName_iff.1 (hname.plain c (by simp))).1
    rw [endTagName, List.reverse_append, List.reverse_singleton, List.singleton_append,
      List.dropWhile_cons_of_neg (by simp [hspace]), List.reverse_cons, List.reverse_reverse]
    split
    · next heq => simp at heq
    · rfl

theorem reads_endTag (hname : IsName name) (rest : List Char) :
    Reads ('<' :: '/' :: (name ++ '>' :: rest)) (.endTag name) rest := by
  obtain ⟨hlt, hcut⟩ := Cuts.append hname.outside (cuts_close rest)
  rw [List.append_nil] at hcut
  refine reads_markup ⟨Text.length_lt_cons_of_lt hlt, ?_⟩
  rw [readMarkup, hcut]
  simp only [endTagName_of_isName hname]

theorem reads_comment (hs : ¬ ['-', '-', '>'] <:+: s) (rest : List Char) :
    Reads ('<' :: '!' :: '-' :: '-' :: (s ++ '-' :: '-' :: '>' :: rest)) (.comment s) rest := by
  have hcut : Text.cut? ['-', '-', '>'] (s ++ '-' :: '-' :: '>' :: rest) = some (s, rest) :=
    Text.cut?_append (m := ['-', '-']) (by decide) hs rest
  obtain ⟨hlt, hmark⟩ := (cutMark?_eq_some (List.cons_ne_nil _ _)).2 hcut
  refine reads_markup ⟨?_, ?_⟩
  · simp only [List.length_cons]
    omega
  · rw [readMarkup, readDeclaration, hmark]
    rfl

theorem reads_header (hs : ¬ ['?', '>'] <:+: s) (hspace : ∃ c t, s = c :: t ∧ isSpace c = true)
    (rest : List Char) :
    Reads ('<' :: '?' :: 'x' :: 'm' :: 'l' :: (s ++ '?' :: '>' :: rest)) (.header s) rest := by
  obtain ⟨c, t, rfl, hspace⟩ := hspace
  have hinside : ¬ ['?', '>'] <:+: '?' :: 'x' :: 'm' :: 'l' :: c :: t :=
    Text.not_infix_append_cons (x := ['?', 'x', 'm']) (c := 'l') (by decide) (by decide) hs
  have hcut : Text.cut? ['?', '>'] ('?' :: 'x' :: 'm' :: 'l' :: (c :: t ++ '?' :: '>' :: rest)) =
      some ('?' :: 'x' :: 'm' :: 'l' :: c :: t, rest) :=
    Text.cut?_append (m := ['?']) (by decide) hinside rest
  obtain ⟨hlt, hmark⟩ := (cutMark?_eq_some (List.cons_ne_nil _ _)).2 hcut
  refine reads_markup ⟨hlt, ?_⟩
  rw [readMarkup, hmark]
  simp only [isHeader, hspace]
  rfl

/-! ## Events that were read -/

/-- What the event holds does not hold the end of its markup. -/
def Event.Sane : Event → Prop
  | .header inside => ¬ ['?', '>'] <:+: inside
  | .startTag inside => ∀ c ∈ inside.head?, c ≠ '!' ∧ c ≠ '?'
  | .emptyTag inside => ∀ c ∈ inside.head?, c ≠ '!' ∧ c ≠ '?'
  | .comment s => ¬ ['-', '-', '>'] <:+: s
  | _ => True

theorem sane_of_readDeclaration {r : Shorter s} (h : readDeclaration s = .ok (event, r)) :
    event.Sane := by
  unfold readDeclaration at h
  split at h
  · split at h
    · cases h
    · next hmark =>
      cases h
      exact Text.not_infix_of_cut? (List.cons_ne_nil _ _)
        ((cutMark?_eq_some (List.cons_ne_nil _ _)).1 ⟨_, hmark⟩)
  · cases h
  · split at h
    · cases h
    · split at h
      · cases h
      · cases h
        trivial
  · split at h
    · split at h
      · cases h
      · split at h
        · cases h
        · split at h
          · cases h
          · cases h
            trivial
    · cases h
  · cases h

/-- A tag that is not empty begins where the text does. -/
theorem head?_of_cutTag? {r : Shorter s} (h : cutTag? none s = some (inside, r)) :
    ∀ c ∈ inside.head?, c ∈ s.head? := by
  intro c hc
  cases s with
  | nil => cases h
  | cons d s =>
    rw [cutTag?] at h
    split at h
    · cases h
      cases hc
    · obtain ⟨_, _, e⟩ := Option.map_eq_some_iff.1 h
      cases e
      exact hc

theorem sane_of_readMarkup {r : Shorter s} (h : readMarkup s = .ok (event, r)) : event.Sane := by
  unfold readMarkup at h
  split at h
  · cases h
  · obtain ⟨⟨made, r'⟩, hmade, e⟩ := map_eq_ok_iff.1 h
    cases e
    exact sane_of_readDeclaration hmade
  · next t =>
    split at h
    · next c inside r' hmark =>
      cases h
      split
      · have hwhole := Text.not_infix_of_cut? (List.cons_ne_nil _ _)
          ((cutMark?_eq_some (List.cons_ne_nil _ _)).1 ⟨_, hmark⟩)
        intro inside
        exact hwhole (List.infix_cons (inside.trans (List.drop_suffix 3 _).isInfix))
      · trivial
    · cases h
  · split at h
    · cases h
    · cases h
      trivial
  · next hbang hquestion _ =>
    have begins : ∀ c ∈ s.head?, c ≠ '!' ∧ c ≠ '?' := by
      intro c hc
      cases s with
      | nil => cases hc
      | cons d s =>
        cases hc
        refine ⟨?_, ?_⟩
        · rintro rfl
          exact hbang s rfl
        · rintro rfl
          exact hquestion s rfl
    split at h
    · cases h
    · next inside r' hcut =>
      have hinside := head?_of_cutTag? hcut
      split at h
      · cases h
        intro c hc
        obtain ⟨last, hlast⟩ := List.dropLast_prefix inside
        refine begins c (hinside c ?_)
        rw [← hlast, List.head?_append, Option.mem_def.1 hc]
        rfl
      · cases h
        exact fun c hc => begins c (hinside c hc)

theorem sane_of_readEvent {r : Shorter (c :: s)} (h : readEvent c s = .ok (event, r)) :
    event.Sane := by
  unfold readEvent at h
  split at h
  · obtain ⟨⟨made, r'⟩, hmade, e⟩ := map_eq_ok_iff.1 h
    cases e
    exact sane_of_readMarkup hmade
  · cases h
    trivial

end PartPatch.Xml
