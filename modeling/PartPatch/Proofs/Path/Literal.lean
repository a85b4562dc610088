import PartPatch.Proofs.Path.Grammar

/-!
# Literals

The language has no place for a value written out: no text in it contains a quote, and digits stand
inside symbols only.
-/

namespace PartPatch.Path

set_option autoImplicit false

variable {s r : List Char} {axis : Axis} {test : NameTest} {symbol : String}
  {equals : Option String}

/-- No quote occurs, and a digit only behind another symbol character. `inSymbol` tells whether the
text stands behind one. -/
def LiteralFree : Bool → List Char → Prop
  | _, [] => True
  | inSymbol, c :: s =>
    c ≠ '\x27' ∧ c ≠ '\x22' ∧ (c.isDigit = true → inSymbol = true) ∧
      LiteralFree (Symbol.isChar c) s

theorem LiteralFree.mono {inSymbol : Bool} (h : LiteralFree false s) : LiteralFree inSymbol s := by
  cases s with
  | nil => trivial
  | cons c s =>
    refine ⟨h.1, h.2.1, ?_, h.2.2.2⟩
    intro hdigit
    cases h.2.2.1 hdigit

/-- What a literal may begin with. -/
def opensLiteral (c : Char) : Bool :=
  c == '\x27' || c == '\x22' || c.isDigit

theorem LiteralFree.cons {c : Char} (hc : opensLiteral c = false) (h : LiteralFree false s) :
    LiteralFree false (c :: s) := by
  simp only [opensLiteral, Bool.or_eq_false_iff, beq_eq_false_iff_ne] at hc
  refine ⟨hc.1.1, hc.1.2, ?_, h.mono⟩
  intro hdigit
  rw [hc.2] at hdigit
  cases hdigit

theorem Blanks.literalFree (h : Blanks s r) (hr : LiteralFree false r) : LiteralFree false s := by
  induction h with
  | none => exact hr
  | more blank _ ih => exact (ih hr).cons (not_of_isAsciiBlank blank (by decide))

theorem SymbolText.literalFree (h : SymbolText s symbol r) (hr : LiteralFree false r) :
    LiteralFree false s := by
  have unquoted : ∀ c, Symbol.isChar c = true → c ≠ '\x27' ∧ c ≠ '\x22' := by
    intro c hc
    refine ⟨?_, ?_⟩
    · intro e
      rw [e] at hc
      exact absurd hc (by decide)
    · intro e
      rw [e] at hc
      exact absurd hc (by decide)
  have inside : ∀ w : List Char, (∀ c ∈ w, Symbol.isChar c = true) → LiteralFree true (w ++ r) := by
    intro w
    induction w with
    | nil =>
      intro _
      exact hr.mono
    | cons c w ih =>
      intro hw
      have hc := hw c List.mem_cons_self
      refine ⟨(unquoted c hc).1, (unquoted c hc).2, fun _ => rfl, ?_⟩
      rw [hc]
      exact ih fun d hd => hw d (List.mem_cons_of_mem c hd)
  obtain ⟨c, hfirst, hdigit⟩ := h.first
  obtain ⟨w, hw⟩ := List.head?_eq_some_iff.1 (Option.mem_def.1 hfirst)
  have hchars := h.chars
  rw [hw] at hchars
  have hc := hchars c List.mem_cons_self
  rw [h.text, hw, List.cons_append]
  refine ⟨(unquoted c hc).1, (unquoted c hc).2, ?_, ?_⟩
  · intro h
    rw [hdigit] at h
    cases h
  · rw [hc]
    exact inside w fun d hd => hchars d (List.mem_cons_of_mem c hd)

theorem TestText.literalFree (h : TestText s test r) (hr : LiteralFree false r) :
    LiteralFree false s := by
  cases h with
  | any => exact hr.cons (by decide)
  | named text => exact text.literalFree hr

theorem SeparatorText.literalFree (h : SeparatorText s axis r) (hr : LiteralFree false r) :
    LiteralFree false s := by
  cases h with
  | child => exact hr.cons (by decide)
  | descendant => exact (hr.cons (by decide)).cons (by decide)

theorem ComparisonText.literalFree (h : ComparisonText s equals r) (hr : LiteralFree false r) :
    LiteralFree false s := by
  cases h with
  | none => exact hr
  | some before text behind =>
    have hname := text.literalFree (behind.literalFree hr)
    exact (before.literalFree (hname.cons (by decide))).cons (by decide)

mutual

theorem StepsText.literalFree : ∀ {axis : Axis} {s r : List Char} {steps : List Step},
    StepsText axis s steps r → LiteralFree false r → LiteralFree false s
  | _, _, _, _, .attribute text, hr => (text.literalFree hr).cons (by decide)
  | _, _, _, _, .last first filters, hr => first.literalFree (filters.literalFree hr)
  | _, _, _, _, .more first filters separator rest, hr =>
    first.literalFree (filters.literalFree (separator.literalFree (rest.literalFree hr)))

theorem PredicatesText.literalFree : ∀ {s r : List Char} {predicates : List Step},
    PredicatesText s predicates r → LiteralFree false r → LiteralFree false s
  | _, _, _, .none, hr => hr
  | _, _, _, .more before inside behind comparison rest, hr => by
    have hclosed := (rest.literalFree hr).cons (c := ']') (by decide)
    have hbehind := behind.literalFree (comparison.literalFree hclosed)
    exact (before.literalFree (inside.literalFree hbehind)).cons (by decide)

end

theorem PathText.literalFree {path : Path} (h : PathText s path) : LiteralFree false s := by
  cases h with
  | bare before text behind => exact before.literalFree (text.literalFree (behind.literalFree trivial))
  | separated before separator text behind =>
    have hsteps := text.literalFree (behind.literalFree trivial)
    exact before.literalFree (separator.literalFree hsteps)

end PartPatch.Path
