import Mathlib.Data.List.Basic
import PartPatch.Xml.Escape

/-!
# Escaped text

Resolving the references of an escaped text gives the text back, and no character in it reads as
markup.
-/

namespace PartPatch.Xml

set_option autoImplicit false

variable {c : Char}

theorem unescape?_entity (name : List Char) (hname : name.all inEntityName = true)
    (h : entity? name = some c) (s : List Char) :
    unescape? ('&' :: (name ++ ';' :: s)) = (unescape? s).map (c :: ·) := by
  rw [List.all_eq_true] at hname
  have hrest : (name ++ ';' :: s).dropWhile inEntityName = ';' :: s := by
    rw [List.dropWhile_append_of_pos hname]
    rfl
  have hspan : (name ++ ';' :: s).takeWhile inEntityName = name := by
    rw [List.takeWhile_append_of_pos hname]
    simp [inEntityName]
  rw [unescape?]
  split
  · next rest hr =>
    rw [hrest] at hr
    cases hr
    rw [hspan, h]
  · next hne => exact absurd hrest (hne s)

theorem unescape?_cons (h : c ≠ '&') (s : List Char) :
    unescape? (c :: s) = (unescape? s).map (c :: ·) := by
  rw [unescape?]
  exact h

theorem unescape?_escapeTextChar (c : Char) (s : List Char) :
    unescape? (escapeTextChar c ++ s) = (unescape? s).map (c :: ·) := by
  unfold escapeTextChar
  by_cases hlt : c = '<'
  · rw [if_pos hlt, hlt]
    exact unescape?_entity ['l', 't'] (by decide) (by decide) s
  by_cases hgt : c = '>'
  · rw [if_neg hlt, if_pos hgt, hgt]
    exact unescape?_entity ['g', 't'] (by decide) (by decide) s
  by_cases hamp : c = '&'
  · rw [if_neg hlt, if_neg hgt, if_pos hamp, hamp]
    exact unescape?_entity ['a', 'm', 'p'] (by decide) (by decide) s
  rw [if_neg hlt, if_neg hgt, if_neg hamp]
  exact unescape?_cons hamp s

theorem unescape?_escapeValueChar (c : Char) (s : List Char) :
    unescape? (escapeValueChar c ++ s) = (unescape? s).map (c :: ·) := by
  unfold escapeValueChar
  by_cases hsingle : c = '\x27'
  · rw [if_pos hsingle, hsingle]
    exact unescape?_entity ['a', 'p', 'o', 's'] (by decide) (by decide) s
  by_cases hdouble : c = '\x22'
  · rw [if_neg hsingle, if_pos hdouble, hdouble]
    exact unescape?_entity ['q', 'u', 'o', 't'] (by decide) (by decide) s
  rw [if_neg hsingle, if_neg hdouble]
  exact unescape?_escapeTextChar c s

theorem unescape?_flatMap {escape : Char → List Char}
    (h : ∀ c s, unescape? (escape c ++ s) = (unescape? s).map (c :: ·)) (s : List Char) :
    unescape? (s.flatMap escape) = some s := by
  induction s with
  | nil =>
    rw [List.flatMap_nil, unescape?]
  | cons c s ih =>
    rw [List.flatMap_cons, h, ih]
    rfl

theorem toList_escapeText (s : String) :
    (escapeText s).toList = s.toList.flatMap escapeTextChar :=
  String.toList_ofList

theorem toList_escapeValue (s : String) :
    (escapeValue s).toList = s.toList.flatMap escapeValueChar :=
  String.toList_ofList

theorem unescape?_escapeText (s : String) : unescape? (escapeText s).toList = some s.toList := by
  rw [toList_escapeText, unescape?_flatMap unescape?_escapeTextChar]

theorem unescape?_escapeValue (s : String) : unescape? (escapeValue s).toList = some s.toList := by
  rw [toList_escapeValue, unescape?_flatMap unescape?_escapeValueChar]

/-- A character stays as it is unless it is replaced by the name of an entity. -/
theorem mem_escapeTextChar {d : Char} (h : d ∈ escapeTextChar c) :
    (d = c ∧ c ≠ '<') ∨ d ∈ ['&', 'l', 'g', 't', 'a', 'm', 'p', ';'] := by
  have replaced : ∀ {entity : List Char}, entity.Sublist ['&', 'l', 'g', 't', 'a', 'm', 'p', ';'] →
      d ∈ entity → (d = c ∧ c ≠ '<') ∨ d ∈ ['&', 'l', 'g', 't', 'a', 'm', 'p', ';'] :=
    fun hsub hd => Or.inr (hsub.subset hd)
  unfold escapeTextChar at h
  split at h
  · exact replaced (by decide) h
  · split at h
    · exact replaced (by decide) h
    · split at h
      · exact replaced (by decide) h
      · next hlt _ _ => exact Or.inl ⟨List.mem_singleton.1 h, hlt⟩

theorem ne_of_mem_escapeTextChar {d : Char} (h : d ∈ escapeTextChar c) : d ≠ '<' := by
  rcases mem_escapeTextChar h with ⟨rfl, hc⟩ | hentity
  · exact hc
  · rintro rfl
    revert hentity
    decide

theorem ne_of_mem_escapeText {s : String} (h : c ∈ (escapeText s).toList) : c ≠ '<' := by
  rw [toList_escapeText, List.mem_flatMap] at h
  obtain ⟨_, _, hc⟩ := h
  exact ne_of_mem_escapeTextChar hc

theorem ne_of_mem_escapeValueChar {d : Char} (h : d ∈ escapeValueChar c) : d ≠ '\x22' := by
  unfold escapeValueChar at h
  rintro rfl
  split at h
  · revert h
    decide
  · split at h
    · revert h
      decide
    · next hc =>
      rcases mem_escapeTextChar h with ⟨rfl, _⟩ | hentity
      · exact hc rfl
      · revert hentity
        decide

theorem ne_of_mem_escapeValue {s : String} (h : c ∈ (escapeValue s).toList) : c ≠ '\x22' := by
  rw [toList_escapeValue, List.mem_flatMap] at h
  obtain ⟨_, _, hc⟩ := h
  exact ne_of_mem_escapeValueChar hc

theorem escapeText_append (s r : String) : escapeText (s ++ r) = escapeText s ++ escapeText r := by
  rw [← String.toList_inj, String.toList_append]
  simp [toList_escapeText]

end PartPatch.Xml
