import PartPatch.Tree.Content

/-!
# Contents in normal form

A written document does not show where one text ends and the next begins, nor texts that are empty,
and white space around the root is as good as any text there. The *normal form* of a content joins
texts that stand next to one another and leaves out empty ones; outside the root it has no texts.
-/

namespace PartPatch.Content

set_option autoImplicit false

def isElement : Content → Bool
  | .element _ _ => true
  | _ => false

def isText : Content → Bool
  | .text _ => true
  | _ => false

/-- Puts a content in front of others; a text joins the text that comes first. -/
def prepend : Content → List Content → List Content
  | .text s, .text r :: cs => .text (s ++ r) :: cs
  | .text s, cs => if s = "" then cs else .text s :: cs
  | c, cs => c :: cs

mutual

def normal : Content → Content
  | .element e children => .element e (normalAll children)
  | .text s => .text s
  | .comment s => .comment s

def normalAll : List Content → List Content
  | [] => []
  | c :: cs => prepend (normal c) (normalAll cs)

end

/-- The normal form of what a document holds. -/
def normalDocument (cs : List Content) : List Content :=
  (normalAll cs).filter fun c => !c.isText

variable {c : Content} {cs : List Content}

theorem prepend_of_not_text (h : c.isText = false) (cs : List Content) :
    prepend c cs = c :: cs := by
  cases c with
  | text s => cases h
  | element e children => rfl
  | comment s => rfl

theorem prepend_text_cases (cs : List Content) :
    (∃ r ds, cs = .text r :: ds) ∨
      ∀ s, prepend (.text s) cs = if s = "" then cs else .text s :: cs := by
  cases cs with
  | nil => exact Or.inr fun _ => rfl
  | cons c cs =>
    cases c with
    | text r => exact Or.inl ⟨r, cs, rfl⟩
    | element e children => exact Or.inr fun _ => rfl
    | comment r => exact Or.inr fun _ => rfl

theorem prepend_empty (cs : List Content) : prepend (.text "") cs = cs := by
  rcases prepend_text_cases cs with ⟨r, ds, rfl⟩ | h
  · rw [prepend, String.empty_append]
  · rw [h, if_pos rfl]

/-- A text in front of something else stands alone. -/
theorem prepend_text_cons (s : String) (h : c.isText = false) (cs : List Content) :
    prepend (.text s) (c :: cs) = prepend (.text s) [] ++ c :: cs := by
  cases c with
  | text r => cases h
  | element e children =>
    simp only [prepend]
    split <;> rfl
  | comment r =>
    simp only [prepend]
    split <;> rfl

theorem prepend_prepend (s r : String) (cs : List Content) :
    prepend (.text s) (prepend (.text r) cs) = prepend (.text (s ++ r)) cs := by
  rcases prepend_text_cases cs with ⟨q, ds, rfl⟩ | h
  · rw [prepend, prepend, prepend, String.append_assoc]
  · rw [h r, h (s ++ r)]
    by_cases hr : r = ""
    · rw [if_pos hr, hr, String.append_empty, h s]
    · have hsr : s ++ r ≠ "" := by
        rw [ne_eq, String.append_eq_empty_iff]
        exact fun hempty => hr hempty.2
      rw [if_neg hr, if_neg hsr, prepend]

theorem isText_iff : c.isText = true ↔ ∃ s, c = .text s := by
  cases c <;> simp [isText]

theorem isText_normal (c : Content) : c.normal.isText = c.isText := by
  cases c <;> rfl

theorem isElement_normal (c : Content) : c.normal.isElement = c.isElement := by
  cases c <;> rfl

/-- Where texts are dropped it does not matter what comes in front. -/
theorem filter_prepend_text (s : String) (cs : List Content) :
    ((prepend (.text s) cs).filter fun c => !c.isText) = cs.filter fun c => !c.isText := by
  rcases prepend_text_cases cs with ⟨r, ds, rfl⟩ | h
  · rfl
  · rw [h]
    split
    · rfl
    · exact List.filter_cons_of_neg (by simp [isText])

theorem countP_prepend (c : Content) (cs : List Content) :
    (prepend c cs).countP isElement = [c].countP isElement + cs.countP isElement := by
  cases hc : c.isText with
  | true =>
    obtain ⟨s, rfl⟩ := isText_iff.1 hc
    rcases prepend_text_cases cs with ⟨r, ds, rfl⟩ | h
    · simp [prepend, isElement]
    · rw [h]
      split <;> simp [isElement]
  | false =>
    rw [prepend_of_not_text hc, ← List.countP_append, List.singleton_append]

/-- The normal form has as many elements next to one another. -/
theorem countP_normalDocument (cs : List Content) :
    (normalDocument cs).countP isElement = cs.countP isElement := by
  have helement : ∀ c : Content, (c.isElement && !c.isText) = c.isElement := by
    intro c
    cases c <;> rfl
  rw [normalDocument, List.countP_filter]
  simp only [helement]
  induction cs with
  | nil => rfl
  | cons c cs ih =>
    have hc : [c.normal].countP isElement = [c].countP isElement := by simp [isElement_normal]
    rw [normalAll, countP_prepend, ih, hc, ← List.countP_append, List.singleton_append]

end PartPatch.Content
