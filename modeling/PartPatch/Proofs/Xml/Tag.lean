import Mathlib.Data.List.Nodup
import PartPatch.Proofs.Except
import PartPatch.Proofs.Text.Cut
import PartPatch.Proofs.Xml.Escape
import PartPatch.Xml.Attribute

/-!
# Tags that were written

A tag of a plain name and of plain names with quoted values is cut at its closing bracket and read
as the name and the values.
-/

namespace PartPatch.Xml

set_option autoImplicit false

/-- No space, quote, bracket, slash or equals sign, which would end a name or change what it is. -/
def inName (c : Char) : Bool :=
  !isSpace c && c != '\x27' && c != '\x22' && c != '<' && c != '>' && c != '/' && c != '='

structure IsName (name : List Char) : Prop where
  ne_nil : name ≠ []
  plain : ∀ c ∈ name, inName c = true

variable {name s r inside rest : List Char} {quote : Option Char} {c : Char} {a : RawAttribute}

theorem isName_of_all (hne : name ≠ []) (h : name.all inName = true) : IsName name :=
  ⟨hne, List.all_eq_true.1 h⟩

theorem inName_iff : inName c = true ↔ isSpace c = false ∧ c ≠ '\x27' ∧ c ≠ '\x22' ∧ c ≠ '<' ∧
    c ≠ '>' ∧ c ≠ '/' ∧ c ≠ '=' := by
  simp [inName, and_assoc]

/-! ## Where a tag ends -/

/-- Cutting the tag leaves `rest` behind; the quote is open at its start. -/
def Cuts (quote : Option Char) (s inside rest : List Char) : Prop :=
  ∃ h, cutTag? quote s = some (inside, ⟨rest, h⟩)

/-- The quote that is open behind the character. -/
def quoteAfter (quote : Option Char) (c : Char) : Option Char :=
  match quote with
  | none => if c = '\x27' ∨ c = '\x22' then some c else none
  | some q => if c = q then none else some q

theorem cuts_close (rest : List Char) : Cuts none ('>' :: rest) [] rest :=
  ⟨Text.length_lt_cons _ _, by rw [cutTag?, if_pos ⟨rfl, rfl⟩]⟩

theorem Cuts.cons (hc : quote = none → c ≠ '>') (h : Cuts (quoteAfter quote c) s inside rest) :
    Cuts quote (c :: s) (c :: inside) rest := by
  obtain ⟨hlt, hcut⟩ := h
  have hopen : ¬ (quote = none ∧ c = '>') := fun hclose => hc hclose.1 hclose.2
  refine ⟨Text.length_lt_cons_of_lt hlt, ?_⟩
  rw [cutTag?.eq_def]
  simp only [if_neg hopen]
  change (cutTag? (quoteAfter quote c) s).map _ = _
  rw [hcut]
  rfl

/-- Outside quotes. -/
theorem Cuts.append (hs : ∀ c ∈ s, c ≠ '>' ∧ c ≠ '\x27' ∧ c ≠ '\x22')
    (h : Cuts none r inside rest) : Cuts none (s ++ r) (s ++ inside) rest := by
  induction s with
  | nil => exact h
  | cons c s ih =>
    obtain ⟨hclose, hsingle, hdouble⟩ := hs c List.mem_cons_self
    refine .cons (fun _ => hclose) ?_
    rw [quoteAfter, if_neg (by simp [hsingle, hdouble])]
    exact ih fun d hd => hs d (List.mem_cons_of_mem c hd)

theorem Cuts.quoted (hs : '\x22' ∉ s) (h : Cuts none r inside rest) :
    Cuts none ('\x22' :: (s ++ '\x22' :: r)) ('\x22' :: (s ++ '\x22' :: inside)) rest := by
  refine .cons (fun _ => by decide) ?_
  rw [quoteAfter, if_pos (Or.inr rfl)]
  induction s with
  | nil =>
    refine .cons (by simp) ?_
    rw [quoteAfter, if_pos rfl]
    exact h
  | cons c s ih =>
    rw [List.mem_cons, not_or] at hs
    refine .cons (by simp) ?_
    rw [quoteAfter, if_neg (Ne.symm hs.1)]
    exact ih hs.2

/-! ## Attributes -/

namespace RawAttribute

/-- How an attribute is written. -/
def text (a : RawAttribute) : List Char :=
  ' ' :: (a.name ++ '=' :: '\x22' :: (a.value ++ ['\x22']))

structure Plain (a : RawAttribute) : Prop where
  name : IsName a.name
  value : '\x22' ∉ a.value

theorem text_append (a : RawAttribute) (r : List Char) :
    a.text ++ r = ' ' :: (a.name ++ '=' :: '\x22' :: (a.value ++ '\x22' :: r)) := by
  simp [text]

end RawAttribute

theorem IsName.outside (h : IsName name) : ∀ c ∈ name, c ≠ '>' ∧ c ≠ '\x27' ∧ c ≠ '\x22' := by
  intro c hc
  obtain ⟨_, hsingle, hdouble, _, hclose, _, _⟩ := inName_iff.1 (h.plain c hc)
  exact ⟨hclose, hsingle, hdouble⟩

theorem Cuts.attribute (ha : a.Plain) (h : Cuts none r inside rest) :
    Cuts none (a.text ++ r) (a.text ++ inside) rest := by
  rw [a.text_append, a.text_append]
  refine .cons (fun _ => by decide) (.append ha.name.outside ?_)
  exact .cons (fun _ => by decide) (h.quoted ha.value)

theorem Cuts.tag (hname : IsName name) {attributes : List RawAttribute}
    (plain : ∀ a ∈ attributes, a.Plain) (h : Cuts none r inside rest) :
    Cuts none (name ++ (attributes.flatMap RawAttribute.text ++ r))
      (name ++ (attributes.flatMap RawAttribute.text ++ inside)) rest := by
  refine .append hname.outside ?_
  induction attributes with
  | nil => exact h
  | cons a attributes ih =>
    rw [List.flatMap_cons, List.append_assoc, List.append_assoc]
    exact .attribute (plain a List.mem_cons_self)
      (ih fun b hb => plain b (List.mem_cons_of_mem a hb))

theorem skipSpace_cons (h : isSpace c = false) (s : List Char) : skipSpace (c :: s) = c :: s := by
  rw [skipSpace, List.dropWhile_cons_of_neg]
  simp [h]

theorem cutMark?_eq_some {mark : List Char} (hmark : mark ≠ []) :
    (∃ h, cutMark? mark s hmark = some (inside, ⟨rest, h⟩)) ↔
      Text.cut? mark s = some (inside, rest) := by
  unfold cutMark?
  split
  · next hnone => simp [hnone]
  · next before rest' hsome =>
    constructor
    · rintro ⟨_, h⟩
      cases h
      exact hsome
    · intro h
      rw [hsome] at h
      cases h
      exact ⟨length_lt_of_cut? hmark hsome, rfl⟩

theorem readValue_quoted (hs : '\x22' ∉ s) (r : List Char) :
    ∃ h, readValue ('\x22' :: (s ++ '\x22' :: r)) = .ok (s, ⟨r, h⟩) := by
  have hcut : Text.cut? ['\x22'] (s ++ '\x22' :: r) = some (s, r) := by
    refine Text.cut?_append (m := []) (by simp) ?_ r
    exact fun inside => hs (inside.subset List.mem_cons_self)
  obtain ⟨hlt, hmark⟩ := (cutMark?_eq_some (List.cons_ne_nil '\x22' [])).2 hcut
  have hskip : skipSpace ('\x22' :: (s ++ '\x22' :: r)) = '\x22' :: (s ++ '\x22' :: r) :=
    skipSpace_cons (by decide) _
  unfold readValue
  split
  · next h =>
    rw [hskip] at h
    cases h
  · next q t h =>
    rw [hskip] at h
    cases h
    rw [if_pos (Or.inr rfl)]
    split
    · next hnone =>
      rw [hmark] at hnone
      cases hnone
    · next hsome =>
      rw [hmark] at hsome
      cases hsome
      exact ⟨Text.length_lt_cons_of_lt hlt, rfl⟩

theorem readAttribute_text (ha : a.Plain) (r : List Char) :
    ∃ h, readAttribute (a.text ++ r) = .ok (some (a, ⟨r, h⟩)) := by
  obtain ⟨name, value⟩ := a
  obtain ⟨⟨hne, hplain⟩, hvalue⟩ := ha
  obtain ⟨c, t, rfl⟩ := List.exists_cons_of_ne_nil hne
  have hskip : skipSpace (RawAttribute.text ⟨c :: t, value⟩ ++ r) =
      c :: (t ++ '=' :: '\x22' :: (value ++ '\x22' :: r)) := by
    rw [RawAttribute.text_append, skipSpace, List.dropWhile_cons_of_pos (by decide),
      List.cons_append]
    exact skipSpace_cons (inName_iff.1 (hplain c List.mem_cons_self)).1 _
  have hname : ∀ d ∈ t, inAttributeName d = true := by
    intro d hd
    obtain ⟨hspace, _, _, _, _, _, hequals⟩ :=
      inName_iff.1 (hplain d (List.mem_cons_of_mem c hd))
    simp [inAttributeName, hspace, hequals]
  have hequals : skipSpace ((t ++ '=' :: '\x22' :: (value ++ '\x22' :: r)).dropWhile
      inAttributeName) = '=' :: '\x22' :: (value ++ '\x22' :: r) := by
    rw [List.dropWhile_append_of_pos hname]
    rfl
  have hspan : (t ++ '=' :: '\x22' :: (value ++ '\x22' :: r)).takeWhile inAttributeName = t := by
    rw [List.takeWhile_append_of_pos hname]
    simp [inAttributeName]
  obtain ⟨hlt, hread⟩ := readValue_quoted hvalue r
  unfold readAttribute
  split
  · next h =>
    rw [hskip] at h
    cases h
  · next c' t' h =>
    rw [hskip] at h
    cases h
    split
    · next u h' =>
      rw [hequals] at h'
      cases h'
      split
      · next herror =>
        rw [hread] at herror
        cases herror
      · next hok =>
        rw [hread] at hok
        cases hok
        rw [hspan]
        refine ⟨?_, rfl⟩
        rw [RawAttribute.text_append]
        simp
        omega
    · next hne => exact absurd hequals (hne _)

theorem readAttribute_nil : readAttribute [] = .ok none := by
  unfold readAttribute
  split
  · rfl
  · next h => cases h

theorem readAttributes_text {attributes : List RawAttribute} (plain : ∀ a ∈ attributes, a.Plain) :
    readAttributes (attributes.flatMap RawAttribute.text) = .ok attributes := by
  induction attributes with
  | nil =>
    rw [List.flatMap_nil, readAttributes, readAttribute_nil]
  | cons a attributes ih =>
    obtain ⟨_, hread⟩ := readAttribute_text (plain a List.mem_cons_self)
      (attributes.flatMap RawAttribute.text)
    rw [List.flatMap_cons, readAttributes, hread]
    simp only
    rw [ih fun b hb => plain b (List.mem_cons_of_mem a hb)]

/-- An attribute with its value escaped. -/
def rawAttribute (pair : String × String) : RawAttribute :=
  ⟨pair.1.toList, (escapeValue pair.2).toList⟩

theorem plain_rawAttribute {pair : String × String} (h : IsName pair.1.toList) :
    (rawAttribute pair).Plain :=
  ⟨h, fun hquote => ne_of_mem_escapeValue hquote rfl⟩

/-- What stands inside of a written tag. -/
def tagInside (name : List Char) (pairs : List (String × String)) : List Char :=
  name ++ (pairs.map rawAttribute).flatMap RawAttribute.text

variable {pairs : List (String × String)}

/-- The name ends where the first attribute begins. -/
theorem span_tagInside (hname : IsName name) (pairs : List (String × String)) :
    (tagInside name pairs).takeWhile (fun c => !isSpace c) = name ∧
      (tagInside name pairs).dropWhile (fun c => !isSpace c) =
        (pairs.map rawAttribute).flatMap RawAttribute.text := by
  have hspace : ∀ c ∈ name, (!isSpace c) = true := by
    intro c hc
    rw [(inName_iff.1 (hname.plain c hc)).1]
    rfl
  rw [tagInside, List.takeWhile_append_of_pos hspace, List.dropWhile_append_of_pos hspace]
  cases pairs with
  | nil => simp
  | cons pair pairs =>
    rw [List.map_cons, List.flatMap_cons, RawAttribute.text_append]
    simp [isSpace]

theorem tagName_tagInside (hname : IsName name) (pairs : List (String × String)) :
    tagName (tagInside name pairs) = name :=
  (span_tagInside hname pairs).1

theorem tagAttributes_tagInside (hname : IsName name)
    (names : ∀ pair ∈ pairs, IsName pair.1.toList) (distinct : (pairs.map Prod.fst).Nodup) :
    tagAttributes (tagInside name pairs) = .ok pairs := by
  have plain : ∀ a ∈ pairs.map rawAttribute, a.Plain := by
    intro a ha
    obtain ⟨pair, hpair, rfl⟩ := List.mem_map.1 ha
    exact plain_rawAttribute (names pair hpair)
  have nodup : ((pairs.map rawAttribute).map RawAttribute.name).Nodup := by
    have hnames : (pairs.map rawAttribute).map RawAttribute.name =
        (pairs.map Prod.fst).map String.toList := by
      rw [List.map_map, List.map_map]
      rfl
    rw [hnames]
    exact List.Nodup.map (fun _ _ => String.toList_inj.1) distinct
  unfold tagAttributes
  rw [(span_tagInside hname pairs).2, readAttributes_text plain]
  simp only [if_pos nodup]
  refine mapM_map_eq_ok ?_
  intro pair _
  simp only [rawAttribute, unescape?_escapeValue, String.ofList_toList]

end PartPatch.Xml
