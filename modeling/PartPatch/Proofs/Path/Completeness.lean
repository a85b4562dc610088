import PartPatch.Proofs.Path.Grammar

/-!
# What is in the language is read

Whatever a rule of the language admits in front of a text at which the reader has to stop, the
reader takes. The rules leave no choice: the first character of a text tells which of them applies.
-/

namespace PartPatch.Path

set_option autoImplicit false

variable {α : Type} {p : List Char → Prop} {s r : List Char} {axis : Axis} {test : NameTest}
  {symbol : String} {equals : Option String} {inPredicate : Bool}

/-- Reading gives the result and leaves the rest. -/
def Gives (x : Except Stop (α × { r : List Char // p r })) (a : α) (r : List Char) : Prop :=
  ∃ h, x = .ok (a, ⟨r, h⟩)

theorem skipBlanks_eq_self (h : ∀ c t, r = c :: t → Text.isAsciiBlank c = false) :
    skipBlanks r = r := by
  cases r with
  | nil => rfl
  | cons c t => rw [skipBlanks, List.dropWhile_cons, h c t rfl, if_neg Bool.false_ne_true]

/-- Blanks are skipped up to a text that does not begin with one. -/
theorem Blanks.skipBlanks_eq (h : Blanks s r)
    (hr : ∀ c t, r = c :: t → Text.isAsciiBlank c = false) : skipBlanks s = r := by
  induction h with
  | none => exact skipBlanks_eq_self hr
  | more blank _ ih =>
    rw [skipBlanks, List.dropWhile_cons, if_pos blank]
    exact ih hr

theorem Blanks.skipBlanks_of_begins {q : Char → Bool} (h : Blanks s r) (hr : Begins q r)
    (hq : ([' ', '\t', '\n', '\x0c', '\r'].any q) = false) : skipBlanks s = r := by
  apply h.skipBlanks_eq
  intro c t e
  apply Bool.eq_false_iff.2
  intro hc
  exact hr.ne_cons (not_of_isAsciiBlank hc hq) t e

theorem readSymbol_gives (h : SymbolText s symbol r) (role : Role) :
    Gives (readSymbol role s) symbol r := by
  obtain ⟨c, hc, hdigit⟩ := h.first
  obtain ⟨w, hw⟩ := List.head?_eq_some_iff.1 (Option.mem_def.1 hc)
  have hchar : Symbol.isChar c = true := h.chars c (by rw [hw]; exact List.mem_cons_self)
  have hwhole : ∀ d ∈ w, Symbol.isChar d = true := by
    intro d hd
    apply h.chars
    rw [hw]
    exact List.mem_cons_of_mem c hd
  have hstop : r.takeWhile Symbol.isChar = [] ∧ r.dropWhile Symbol.isChar = r := by
    cases r with
    | nil => exact ⟨rfl, rfl⟩
    | cons d t =>
      have hd : Symbol.isChar d = false := h.longest d rfl
      rw [List.takeWhile_cons, List.dropWhile_cons, hd]
      exact ⟨rfl, rfl⟩
  have hs : s = c :: (w ++ r) := by rw [h.text, hw, List.cons_append]
  have htake : (w ++ r).takeWhile Symbol.isChar = w := by
    rw [List.takeWhile_append_of_pos hwhole, hstop.1, List.append_nil]
  have hdrop : (w ++ r).dropWhile Symbol.isChar = r := by
    rw [List.dropWhile_append_of_pos hwhole, hstop.2]
  have hsymbol : String.ofList (c :: w) = symbol := by rw [← hw, String.ofList_toList]
  subst hs
  refine ⟨?_, ?_⟩
  · rw [List.length_cons, List.length_append]
    omega
  · rw [readSymbol, if_pos hchar, hdigit, if_neg Bool.false_ne_true]
    simp only [htake, hdrop, hsymbol]

theorem readNameTest_gives (h : TestText s test r) : Gives (readNameTest s) test r := by
  cases h with
  | any => exact ⟨_, rfl⟩
  | named text =>
    obtain ⟨hlt, hread⟩ := readSymbol_gives text .elementSymbol
    refine ⟨hlt, ?_⟩
    rw [readNameTest, hread]
    · rfl
    · intro t
      exact text.begins.ne_cons (by decide) t

theorem readAxis?_eq_none (h : ∀ t, s ≠ '/' :: t) : readAxis? s = none := by
  unfold readAxis?
  split
  · next t => exact absurd rfl (h ('/' :: t))
  · next t _ => exact absurd rfl (h t)
  · rfl

theorem readAxis?_gives (h : SeparatorText s axis r) (hr : ∀ t, r ≠ '/' :: t) :
    ∃ hlt, readAxis? s = some (axis, ⟨r, hlt⟩) := by
  cases h with
  | child =>
    refine ⟨Nat.lt_succ_self _, ?_⟩
    rw [readAxis?]
    intro t e
    exact hr t e
  | descendant => exact ⟨_, rfl⟩

theorem readComparison_gives (h : ComparisonText s equals (']' :: r)) :
    Gives (readComparison s) equals (']' :: r) := by
  cases h with
  | none => exact ⟨_, rfl⟩
  | @some s s₁ s₂ _ name before text behind =>
    have hbefore : skipBlanks s = '$' :: s₁ := by
      apply before.skipBlanks_eq
      rintro _ _ ⟨⟩
      decide
    have hbehind : skipBlanks s₂ = ']' :: r := by
      apply behind.skipBlanks_eq
      rintro _ _ ⟨⟩
      decide
    obtain ⟨hlt, hread⟩ := readSymbol_gives text .variableName
    have hle₁ := length_skipBlanks_le s
    have hle₂ := length_skipBlanks_le s₂
    rw [hbefore, List.length_cons] at hle₁
    rw [hbehind] at hle₂
    refine ⟨?_, ?_⟩
    · rw [List.length_cons]
      omega
    · rw [readComparison]
      split
      · next u hu =>
        cases hu.symm.trans hbefore
        simp only [hread, hbehind]
      · next hne => exact absurd hbefore (hne s₁)

theorem atEnd_cons {c : Char} (t : List Char) :
    atEnd inPredicate (c :: t) = ((inPredicate && isClosingChar c) || Text.isAsciiBlank c) := rfl

/-- Where steps may end no further predicate begins. -/
theorem ne_cons_of_atEnd (h : atEnd inPredicate r = true) {c : Char}
    (hclosing : isClosingChar c = false) (hblank : Text.isAsciiBlank c = false) (t : List Char) :
    r ≠ c :: t := by
  intro e
  rw [e, atEnd_cons, hclosing, hblank, Bool.and_false] at h
  cases h

/-- Steps of a predicate may end in front of the blanks before its end. -/
theorem atEnd_of_blanks (h : Blanks s r) (hr : Begins isClosingChar r) : atEnd true s = true := by
  cases h with
  | none =>
    obtain ⟨c, t, hs, hc⟩ := hr
    rw [hs, atEnd_cons, hc]
    rfl
  | more blank _ => rw [atEnd_cons, blank, Bool.or_true]

theorem SeparatorText.begins (h : SeparatorText s axis r) : Begins (· == '/') s := by
  cases h with
  | child => exact ⟨'/', _, rfl, rfl⟩
  | descendant => exact ⟨'/', _, rfl, rfl⟩

theorem SeparatorText.not_atEnd (h : SeparatorText s axis r) : ¬ atEnd inPredicate s = true := by
  intro hend
  obtain ⟨c, t, hs, hc⟩ := h.begins
  rw [beq_iff_eq] at hc
  exact ne_cons_of_atEnd hend (by rw [hc]; decide) (by rw [hc]; decide) t hs

mutual

theorem readSteps_gives : ∀ {axis : Axis} {s r : List Char} {steps : List Step},
    StepsText axis s steps r → ∀ inPredicate : Bool, atEnd inPredicate r = true →
      Gives (readSteps inPredicate axis s) steps r
  | _, _, _, _, .attribute text, inPredicate, hend => by
    obtain ⟨hlt, hread⟩ := readSymbol_gives text .attributeSymbol
    refine ⟨Nat.lt_succ_of_lt hlt, ?_⟩
    rw [readSteps, if_neg (by decide), hread]
    simp only [hend, if_true]
  | axis, s, r, _, .last first filters, inPredicate, hend => by
    obtain ⟨hlt, htest⟩ := readNameTest_gives first
    obtain ⟨hle, hpredicates⟩ := readPredicates_gives filters
      (ne_cons_of_atEnd hend (by decide) (by decide))
    refine ⟨Nat.lt_of_le_of_lt hle hlt, ?_⟩
    rw [readSteps]
    · simp only [htest, hpredicates, hend, if_true]
    · exact first.begins.ne_cons (by decide)
  | axis, s, r, _, .more first filters separator rest, inPredicate, hend => by
    obtain ⟨hlt, htest⟩ := readNameTest_gives first
    obtain ⟨hle, hpredicates⟩ := readPredicates_gives filters (separator.begins.ne_cons (by decide))
    obtain ⟨hlt', haxis⟩ := readAxis?_gives separator (rest.begins.ne_cons (by decide))
    obtain ⟨hlt'', hmore⟩ := readSteps_gives rest inPredicate hend
    refine ⟨by omega, ?_⟩
    rw [readSteps]
    · simp only [htest, hpredicates, if_neg separator.not_atEnd, haxis]
      rw [if_neg rest.begins.ne_nil]
      simp only [hmore]
    · exact first.begins.ne_cons (by decide)

theorem readPredicates_gives : ∀ {s r : List Char} {predicates : List Step},
    PredicatesText s predicates r → (∀ t, r ≠ '[' :: t) → Gives (readPredicates s) predicates r
  | _, _, _, .none, hr => by
    refine ⟨Nat.le_refl _, ?_⟩
    rw [readPredicates]
    exact hr
  | _, _, _, @PredicatesText.more s _ s₂ _ _ _ _ _ _ before inside behind comparison rest, hr => by
    have hbefore := before.skipBlanks_of_begins inside.begins (by decide)
    have hbehind := behind.skipBlanks_of_begins comparison.begins (by decide)
    obtain ⟨hlt, hsteps⟩ := readSteps_gives inside true (atEnd_of_blanks behind comparison.begins)
    obtain ⟨hle, hcomparison⟩ := readComparison_gives comparison
    obtain ⟨hle', hpredicates⟩ := readPredicates_gives rest hr
    subst hbefore
    subst hbehind
    refine ⟨?_, ?_⟩
    · have hle₁ := length_skipBlanks_le s
      have hle₂ := length_skipBlanks_le s₂
      rw [List.length_cons] at hle ⊢
      omega
    · rw [readPredicates]
      split
      · next u hu => exact absurd hu (inside.begins.ne_cons (by decide) u)
      · rw [readAxis?_eq_none (inside.begins.ne_cons (by decide))]
        simp only [hsteps, hcomparison, hpredicates]

end

end PartPatch.Path
