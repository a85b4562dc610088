import PartPatch.Path.Printer
import PartPatch.Proofs.Path.Language

/-!
# The canonical text of a path is read back

What was read from any text is read again from its canonical text. No printed token runs into the
next one: behind each symbol stands a character that no symbol contains.
-/

namespace PartPatch.Path

set_option autoImplicit false

variable {s r : List Char} {axis : Axis} {test : NameTest} {steps : List Step} {symbol : String}
  {equals : Option String}

/-! ## Tokens -/

theorem endsSymbol_cons {c : Char} (hc : Symbol.isChar c = false) (t : List Char) :
    EndsSymbol (c :: t) := by
  rintro _ ⟨⟩
  exact hc

theorem SymbolText.again (h : SymbolText s symbol r) {t : List Char} (ht : EndsSymbol t) :
    SymbolText (symbol.toList ++ t) symbol t :=
  ⟨rfl, h.chars, h.first, ht⟩

theorem TestText.again (h : TestText s test r) {t : List Char} (ht : EndsSymbol t) :
    TestText ((testText test).toList ++ t) test t := by
  cases h with
  | any => exact .any
  | named text => exact .named (text.again ht)

theorem separatorText_axisText (axis : Axis) (t : List Char) :
    SeparatorText ((axisText false axis).toList ++ t) axis t := by
  cases axis with
  | child => exact .child
  | descendant => exact .descendant

theorem SeparatorText.endsSymbol (h : SeparatorText s axis r) : EndsSymbol s := by
  obtain ⟨c, t, hs, hc⟩ := h.begins
  rw [hs, beq_iff_eq.1 hc]
  exact endsSymbol_cons (by decide) t

/-- The text of a comparison, with the blank in front of it. -/
def comparisonText : Option String → String
  | some name => " = $" ++ name
  | none => ""

theorem ComparisonText.again (h : ComparisonText s equals r) (t : List Char) :
    EndsSymbol ((comparisonText equals).toList ++ ']' :: t) ∧
      ∃ u, Blanks ((comparisonText equals).toList ++ ']' :: t) u ∧
        ComparisonText u equals (']' :: t) := by
  have hclosing : EndsSymbol (']' :: t) := endsSymbol_cons (by decide) t
  cases h with
  | none => exact ⟨hclosing, _, .none, .none⟩
  | @some _ _ _ _ name _ text _ =>
    have htext : (comparisonText (.some name)).toList ++ ']' :: t =
        ' ' :: '=' :: ' ' :: '$' :: (name.toList ++ ']' :: t) := by
      rw [comparisonText, String.toList_append]
      rfl
    rw [htext]
    refine ⟨endsSymbol_cons (by decide) _, _, .more (by decide) .none, ?_⟩
    exact .some (.more (by decide) .none) (text.again hclosing) .none

/-! ## Steps -/

theorem stepsText_append (as bs : List Step) :
    stepsText false (as ++ bs) = stepsText false as ++ stepsText false bs := by
  induction as with
  | nil => rw [List.nil_append, stepsText, String.empty_append]
  | cons a as ih => rw [List.cons_append, stepsText, stepsText, ih, String.append_assoc]

theorem toList_predicateText (leading : Bool) (path : List Step) (equals : Option String) :
    (stepText leading (.predicate path equals)).toList =
      '[' :: (stepsText true path).toList ++ (comparisonText equals).toList ++ [']'] := by
  cases equals with
  | none => 
    simp only [stepText, comparisonText, String.toList_append]
    rfl
  | some name =>
    simp only [stepText, comparisonText, String.toList_append]
    rfl

theorem toList_stepsText_element (leading : Bool) (axis : Axis) (test : NameTest)
    (steps : List Step) :
    (stepsText leading (.element axis test :: steps)).toList = (axisText leading axis).toList ++
      ((testText test).toList ++ (stepsText false steps).toList) := by
  rw [stepsText, stepText, String.toList_append, String.toList_append, List.append_assoc]

theorem toList_stepsText_predicate (path : List Step) (equals : Option String)
    (steps : List Step) :
    (stepsText false (.predicate path equals :: steps)).toList = '[' ::
      ((stepsText true path).toList ++
        ((comparisonText equals).toList ++ ']' :: (stepsText false steps).toList)) := by
  rw [stepsText, String.toList_append, toList_predicateText]
  simp only [List.cons_append, List.append_assoc, List.nil_append]

mutual

theorem StepsText.again : ∀ {axis : Axis} {s r : List Char} {steps : List Step},
    StepsText axis s steps r → ∃ w,
      (∀ leading, (stepsText leading steps).toList = (axisText leading axis).toList ++ w) ∧
      ∀ t, EndsSymbol t → StepsText axis (w ++ t) steps t
  | _, _, _, _, @StepsText.attribute _ _ symbol text => by
    refine ⟨'@' :: symbol.toList, ?_, ?_⟩
    · intro leading
      rw [stepsText, stepText, stepsText, String.append_empty, String.toList_append,
        String.toList_append, List.append_assoc]
      rfl
    · intro t ht
      exact .attribute (text.again ht)
  | axis, _, _, _, @StepsText.last _ _ _ _ test predicates first filters => by
    obtain ⟨hends, hfilters⟩ := filters.again
    refine ⟨(testText test).toList ++ (stepsText false predicates).toList, ?_, ?_⟩
    · intro leading
      exact toList_stepsText_element leading axis test predicates
    · intro t ht
      rw [List.append_assoc]
      exact .last (first.again (hends t ht)) (hfilters t)
  | axis, _, _, _, @StepsText.more _ next _ _ _ _ _ test predicates more first filters separator
      rest => by
    obtain ⟨hends, hfilters⟩ := filters.again
    obtain ⟨w, hw, hrest⟩ := rest.again
    refine ⟨(testText test).toList ++ ((stepsText false predicates).toList ++
      ((axisText false next).toList ++ w)), ?_, ?_⟩
    · intro leading
      rw [List.cons_append, toList_stepsText_element, stepsText_append, String.toList_append,
        hw false]
    · intro t ht
      have hseparator := separatorText_axisText next (w ++ t)
      simp only [List.append_assoc]
      exact .more (first.again (hends _ hseparator.endsSymbol)) (hfilters _) hseparator (hrest t ht)

theorem PredicatesText.again : ∀ {s r : List Char} {predicates : List Step},
    PredicatesText s predicates r →
      (∀ t, EndsSymbol t → EndsSymbol ((stepsText false predicates).toList ++ t)) ∧
      ∀ t, PredicatesText ((stepsText false predicates).toList ++ t) predicates t
  | _, _, _, .none => by
    rw [stepsText]
    exact ⟨fun t ht => ht, fun t => .none⟩
  | _, _, _, .more before inside behind comparison rest => by
    obtain ⟨w, hw, hinside⟩ := inside.again
    obtain ⟨_, hrest⟩ := rest.again
    rw [toList_stepsText_predicate, hw true]
    refine ⟨?_, ?_⟩
    · intro t _
      exact endsSymbol_cons (by decide) _
    · intro t
      obtain ⟨hends, u, hblanks, hcomparison⟩ := comparison.again (_ ++ t)
      simp only [List.cons_append, List.append_assoc]
      exact .more .none (hinside _ hends) hblanks hcomparison (hrest t)

end

theorem PathText.again {path : Path} (h : PathText s path) : PathText path.text.toList path := by
  have last : ∀ {axis steps s r}, StepsText axis s steps r →
      PathText (stepsText false steps).toList ⟨steps⟩ := by
    intro axis steps s r h
    obtain ⟨w, hw, hsteps⟩ := h.again
    have hend : EndsSymbol [] := by rintro _ ⟨⟩
    have hseparator := separatorText_axisText axis w
    have htext := hsteps [] hend
    rw [List.append_nil] at htext
    rw [hw false]
    exact .separated .none hseparator htext .none
  cases h with
  | bare _ text _ => exact last text
  | separated _ _ text _ => exact last text

/-! ## Reading again -/

/-- Two texts that are read have the same canonical text if and only if they are read as the same
path, and the canonical text is read as that path, which gives the same text again. -/
theorem read_canonical_text {source other : String} {p q : Path} (hp : read source = .ok p)
    (hq : read other = .ok q) :
    read p.text = .ok p ∧ (p.text = q.text ↔ p = q) ∧
      ∀ again, read p.text = .ok again → again.text = p.text := by
  have hreadp : read p.text = .ok p := read_eq_ok_iff.2 (read_eq_ok_iff.1 hp).again
  have hreadq : read q.text = .ok q := read_eq_ok_iff.2 (read_eq_ok_iff.1 hq).again
  refine ⟨hreadp, ?_, ?_⟩
  · constructor
    · intro e
      rw [e] at hreadp
      exact Except.ok.inj (hreadp.symm.trans hreadq)
    · intro e
      rw [e]
  · intro again h
    rw [hreadp] at h
    rw [← Except.ok.inj h]

def filteredChild : Path :=
  ⟨[.element .child (.named "a"),
    .predicate [.element .child (.named "b"), .predicate [.attribute "c"] (some "d")] none]⟩

def anyDescendant : Path :=
  ⟨[.element .descendant .any]⟩

/-- The first text has other blanks than the canonical one, and no separator in front. -/
theorem read_canonical_text_blanks :
    read " a[ b[@c=$d ]]\n" = .ok filteredChild ∧ read "//*" = .ok anyDescendant ∧
    filteredChild.text = "/a[b[@c = $d]]" ∧ read "/a[b[@c = $d]]" = .ok filteredChild ∧
    filteredChild.text ≠ anyDescendant.text := by
  have hp : read " a[ b[@c=$d ]]\n" = .ok filteredChild := by cbv
  have hq : read "//*" = .ok anyDescendant := by cbv
  have htext : filteredChild.text = "/a[b[@c = $d]]" := by cbv
  obtain ⟨hread, hiff, _⟩ := read_canonical_text hp hq
  rw [htext] at hread hiff
  refine ⟨hp, hq, htext, hread, ?_⟩
  rw [htext]
  intro e
  have hne : filteredChild ≠ anyDescendant := by decide
  exact hne (hiff.1 e)

end PartPatch.Path
