import PartPatch.Proofs.Tree.Elements
import PartPatch.Proofs.Tree.Normal

/-!
# The elements of a content

What a document says is told by its elements: their order, their names, their attributes, and the
text inside of each. Where one text ends and the next begins makes no difference.
-/

namespace PartPatch.Content

set_option autoImplicit false

mutual

/-- The elements in the order of the document, each with its name, its attributes, and the text
inside. -/
def elements : Content → List (QName × List Attribute × String)
  | .element e children => (e.name, e.attributes, textOfAll children) :: elementsAll children
  | .text _ => []
  | .comment _ => []

def elementsAll : List Content → List (QName × List Attribute × String)
  | [] => []
  | c :: cs => elements c ++ elementsAll cs

end

variable {c : Content} {cs : List Content}

mutual

/-- What depends on the name and the attributes only holds of the elements if it holds in the
list. -/
theorem every_iff_elements {Q : QName → List Attribute → Prop} : ∀ {c : Content},
    c.Every (fun e => Q e.name e.attributes) ↔ ∀ entry ∈ c.elements, Q entry.1 entry.2.1
  | .element e children => by
    rw [Every, elements, List.forall_mem_cons, everyAll_iff_elements]
  | .text _ => by simp [Every, elements]
  | .comment _ => by simp [Every, elements]

theorem everyAll_iff_elements {Q : QName → List Attribute → Prop} : ∀ {cs : List Content},
    EveryAll (fun e => Q e.name e.attributes) cs ↔ ∀ entry ∈ elementsAll cs, Q entry.1 entry.2.1
  | [] => by simp [EveryAll, elementsAll]
  | c :: cs => by
    rw [EveryAll, elementsAll, List.forall_mem_append, every_iff_elements, everyAll_iff_elements]

end

/-! ## The normal form -/

theorem elementsAll_prepend (c : Content) (cs : List Content) :
    textOfAll (prepend c cs) = c.textOf ++ textOfAll cs ∧
      elementsAll (prepend c cs) = c.elements ++ elementsAll cs := by
  cases hc : c.isText with
  | true =>
    obtain ⟨s, rfl⟩ := isText_iff.1 hc
    rcases prepend_text_cases cs with ⟨r, ds, rfl⟩ | h
    · simp [prepend, textOfAll, textOf, elementsAll, elements, String.append_assoc]
    · rw [h]
      split
      · next hs => simp [hs, textOf, elements]
      · simp [textOfAll, textOf, elementsAll, elements]
  | false => simp [prepend_of_not_text hc, textOfAll, elementsAll]

mutual

theorem elements_normal : ∀ c : Content,
    c.normal.textOf = c.textOf ∧ c.normal.elements = c.elements
  | .element e children => by
    obtain ⟨text, rest⟩ := elementsAll_normalAll children
    simp only [normal, textOf, elements, text, rest, and_self]
  | .text _ => ⟨rfl, rfl⟩
  | .comment _ => ⟨rfl, rfl⟩

theorem elementsAll_normalAll : ∀ cs : List Content,
    textOfAll (normalAll cs) = textOfAll cs ∧ elementsAll (normalAll cs) = elementsAll cs
  | [] => ⟨rfl, rfl⟩
  | c :: cs => by
    obtain ⟨text, first⟩ := elements_normal c
    obtain ⟨texts, rest⟩ := elementsAll_normalAll cs
    obtain ⟨htext, helements⟩ := elementsAll_prepend c.normal (normalAll cs)
    simp only [normalAll, htext, helements, text, first, texts, rest, textOfAll, elementsAll,
      and_self]

end

theorem elementsAll_normalDocument (cs : List Content) :
    elementsAll (normalDocument cs) = elementsAll cs := by
  rw [← (elementsAll_normalAll cs).2, normalDocument]
  generalize normalAll cs = ds
  induction ds with
  | nil => rfl
  | cons d ds ih =>
    cases hd : d.isText with
    | true =>
      obtain ⟨s, rfl⟩ := isText_iff.1 hd
      rw [List.filter_cons_of_neg (by simp [hd]), ih]
      rfl
    | false =>
      rw [List.filter_cons_of_pos (by simp [hd]), elementsAll, ih, elementsAll]

end PartPatch.Content
