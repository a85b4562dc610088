import PartPatch.Path.Reader

/-!
# The language of paths

    path       := blanks ('/' | '//')? steps blanks
    steps      := '@' symbol | (symbol | '*') predicate* (('/' | '//') steps)?
    predicate  := '[' blanks steps blanks ('=' blanks '$' symbol blanks)? ']'

An attribute step does not follow `//`, and the steps of a predicate start without a separator. A
symbol is a longest run of symbol characters, the first of which is no digit. Every rule is a
relation between a text, what it is read as, and what remains behind it.
-/

namespace PartPatch.Path

set_option autoImplicit false

variable {s r : List Char} {axis : Axis} {test : NameTest} {steps : List Step} {symbol : String}
  {equals : Option String}

/-! ## The rules -/

inductive Blanks : List Char → List Char → Prop where
  | none {r : List Char} : Blanks r r
  | more {c : Char} {s r : List Char} (blank : Text.isAsciiBlank c = true) (rest : Blanks s r) :
    Blanks (c :: s) r

/-- The text does not go on with a symbol character. -/
def EndsSymbol (r : List Char) : Prop :=
  ∀ c ∈ r.head?, Symbol.isChar c = false

structure SymbolText (s : List Char) (symbol : String) (r : List Char) : Prop where
  text : s = symbol.toList ++ r
  chars : ∀ c ∈ symbol.toList, Symbol.isChar c = true
  first : ∃ c ∈ symbol.toList.head?, c.isDigit = false
  longest : EndsSymbol r

inductive TestText : List Char → NameTest → List Char → Prop where
  | any {r : List Char} : TestText ('*' :: r) .any r
  | named {s r : List Char} {symbol : String} (text : SymbolText s symbol r) :
    TestText s (.named symbol) r

inductive SeparatorText : List Char → Axis → List Char → Prop where
  | child {r : List Char} : SeparatorText ('/' :: r) .child r
  | descendant {r : List Char} : SeparatorText ('/' :: '/' :: r) .descendant r

inductive ComparisonText : List Char → Option String → List Char → Prop where
  | none {r : List Char} : ComparisonText r none r
  | some {s s₁ s₂ r : List Char} {name : String} (before : Blanks s ('$' :: s₁))
    (text : SymbolText s₁ name s₂) (behind : Blanks s₂ r) : ComparisonText ('=' :: s) (some name) r

mutual

/-- Steps, the first of which goes along the axis. -/
inductive StepsText : Axis → List Char → List Step → List Char → Prop where
  | attribute {s r : List Char} {symbol : String} (text : SymbolText s symbol r) :
    StepsText .child ('@' :: s) [.attribute symbol] r
  | last {axis : Axis} {s s₁ r : List Char} {test : NameTest} {predicates : List Step}
    (first : TestText s test s₁) (filters : PredicatesText s₁ predicates r) :
    StepsText axis s (.element axis test :: predicates) r
  | more {axis next : Axis} {s s₁ s₂ s₃ r : List Char} {test : NameTest}
    {predicates more : List Step} (first : TestText s test s₁)
    (filters : PredicatesText s₁ predicates s₂) (separator : SeparatorText s₂ next s₃)
    (rest : StepsText next s₃ more r) :
    StepsText axis s (.element axis test :: predicates ++ more) r

inductive PredicatesText : List Char → List Step → List Char → Prop where
  | none {r : List Char} : PredicatesText r [] r
  | more {s s₁ s₂ s₃ s₄ r : List Char} {path predicates : List Step} {equals : Option String}
    (before : Blanks s s₁) (inside : StepsText .child s₁ path s₂) (behind : Blanks s₂ s₃)
    (comparison : ComparisonText s₃ equals (']' :: s₄)) (rest : PredicatesText s₄ predicates r) :
    PredicatesText ('[' :: s) (.predicate path equals :: predicates) r

end

inductive PathText : List Char → Path → Prop where
  | bare {s s₁ s₂ : List Char} {steps : List Step} (before : Blanks s s₁)
    (text : StepsText .child s₁ steps s₂) (behind : Blanks s₂ []) : PathText s ⟨steps⟩
  | separated {s s₁ s₂ s₃ : List Char} {axis : Axis} {steps : List Step} (before : Blanks s s₁)
    (separator : SeparatorText s₁ axis s₂) (text : StepsText axis s₂ steps s₃)
    (behind : Blanks s₃ []) : PathText s ⟨steps⟩

/-! ## What texts begin with -/

/-- The text begins with a character of the class. -/
def Begins (p : Char → Bool) (s : List Char) : Prop :=
  ∃ c t, s = c :: t ∧ p c = true

theorem Begins.ne_cons {p : Char → Bool} (h : Begins p s) {c : Char} (hc : p c = false)
    (t : List Char) : s ≠ c :: t := by
  obtain ⟨d, u, hs, hd⟩ := h
  intro e
  rw [hs] at e
  rw [← (List.cons.inj e).1, hd] at hc
  cases hc

theorem Begins.ne_nil {p : Char → Bool} (h : Begins p s) : s ≠ [] := by
  obtain ⟨c, t, hs, _⟩ := h
  rw [hs]
  exact List.cons_ne_nil c t

theorem Begins.mono {p q : Char → Bool} (h : Begins p s) (hpq : ∀ c, p c = true → q c = true) :
    Begins q s := by
  obtain ⟨c, t, hs, hc⟩ := h
  exact ⟨c, t, hs, hpq c hc⟩

/-- What an element step begins with. -/
def isTestChar (c : Char) : Bool :=
  Symbol.isChar c || c == '*'

/-- What steps begin with. -/
def isStepChar (c : Char) : Bool :=
  isTestChar c || c == '@'

/-- What the end of a predicate begins with. -/
def isClosingChar (c : Char) : Bool :=
  c == ']' || c == '='

/-- Blanks belong to no other class of characters. -/
theorem not_of_isAsciiBlank {p : Char → Bool} {c : Char} (h : Text.isAsciiBlank c = true)
    (hp : ([' ', '\t', '\n', '\x0c', '\r'].any p) = false) : p c = false := by
  simp only [Text.isAsciiBlank, Bool.or_eq_true, beq_iff_eq] at h
  rw [List.any_eq_false] at hp
  apply Bool.eq_false_iff.2
  apply hp
  simpa only [List.mem_cons, List.not_mem_nil, or_false, or_assoc] using h

theorem SymbolText.begins (h : SymbolText s symbol r) : Begins Symbol.isChar s := by
  obtain ⟨c, hc, _⟩ := h.first
  obtain ⟨t, ht⟩ := List.head?_eq_some_iff.1 hc
  refine ⟨c, t ++ r, ?_, h.chars c ?_⟩
  · rw [h.text, ht, List.cons_append]
  · rw [ht]
    exact List.mem_cons_self

theorem TestText.begins (h : TestText s test r) : Begins isTestChar s := by
  cases h with
  | any => exact ⟨'*', r, rfl, rfl⟩
  | named text =>
    apply text.begins.mono
    intro c hc
    rw [isTestChar, hc, Bool.true_or]

theorem StepsText.begins (h : StepsText axis s steps r) : Begins isStepChar s := by
  have isStepChar_of_isTestChar : ∀ c, isTestChar c = true → isStepChar c = true := by
    intro c hc
    rw [isStepChar, hc, Bool.true_or]
  cases h with
  | «attribute» _ => exact ⟨'@', _, rfl, rfl⟩
  | last first _ => exact first.begins.mono isStepChar_of_isTestChar
  | more first _ _ _ => exact first.begins.mono isStepChar_of_isTestChar

/-- A predicate ends in its bracket or in a comparison in front of it. -/
theorem ComparisonText.begins (h : ComparisonText s equals (']' :: r)) :
    Begins isClosingChar s := by
  cases h with
  | none => exact ⟨']', r, rfl, rfl⟩
  | some _ _ _ => exact ⟨'=', _, rfl, rfl⟩

end PartPatch.Path
