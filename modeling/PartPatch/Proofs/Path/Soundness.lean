import PartPatch.Proofs.Path.Grammar

/-!
# What is read is in the language

Whatever a reader takes from the front of a text it takes by a rule of the language. Where reading
fails, it stopped within the text.
-/

namespace PartPatch.Path

set_option autoImplicit false

variable {α : Type} {p : List Char → Prop} {s : List Char} {axis : Axis}

/-- What was read stands in front of the rest, as `taken` says, or reading stopped within the
text. -/
def Reads (s : List Char) (taken : α → List Char → Prop) :
    Except Stop (α × { r : List Char // p r }) → Prop
  | .ok (a, r) => taken a r.val ∧ r.val <:+ s
  | .error stop => stop.rest <:+ s

theorem suffix_skipBlanks (s : List Char) : skipBlanks s <:+ s :=
  List.dropWhile_suffix _

theorem blanks_skipBlanks (s : List Char) : Blanks s (skipBlanks s) := by
  induction s with
  | nil => exact .none
  | cons c s ih =>
    rw [skipBlanks, List.dropWhile_cons]
    split
    · next h => exact .more h ih
    · exact .none

theorem endsSymbol_dropWhile (s : List Char) : EndsSymbol (s.dropWhile Symbol.isChar) := by
  intro c hc
  have hnot := List.head?_dropWhile_not Symbol.isChar s
  rw [Option.mem_def.1 hc] at hnot
  exact hnot

theorem readSymbol_reads (role : Role) (s : List Char) :
    Reads s (SymbolText s) (readSymbol role s) := by
  unfold readSymbol
  split
  · exact List.suffix_rfl
  · next c s =>
    split
    · next hchar =>
      split
      · exact List.suffix_rfl
      · next hdigit =>
        refine ⟨⟨?_, ?_, ?_, ?_⟩, (List.dropWhile_suffix _).trans (List.suffix_cons c s)⟩
        · rw [String.toList_ofList, List.cons_append, List.takeWhile_append_dropWhile]
        · intro d hd
          rw [String.toList_ofList, List.mem_cons] at hd
          rcases hd with e | hd
          · rwa [e]
          · exact List.all_eq_true.1 List.all_takeWhile d hd
        · exact ⟨c, by rw [String.toList_ofList]; rfl, Bool.eq_false_iff.2 hdigit⟩
        · exact endsSymbol_dropWhile s
    · exact List.suffix_rfl

theorem readNameTest_reads (s : List Char) : Reads s (TestText s) (readNameTest s) := by
  unfold readNameTest
  split
  · next s => exact ⟨.any, List.suffix_cons '*' s⟩
  · have hsymbol := readSymbol_reads .elementSymbol s
    cases h : readSymbol .elementSymbol s with
    | error stop =>
      rw [h] at hsymbol
      exact hsymbol
    | ok taken =>
      rw [h] at hsymbol
      exact ⟨.named hsymbol.1, hsymbol.2⟩

theorem separatorText_of_readAxis? {r : Shorter s} (h : readAxis? s = some (axis, r)) :
    SeparatorText s axis r.val ∧ r.val <:+ s := by
  unfold readAxis? at h
  split at h
  · next s =>
    cases h
    exact ⟨.descendant, (List.suffix_cons '/' s).trans (List.suffix_cons '/' _)⟩
  · next s _ =>
    cases h
    exact ⟨.child, List.suffix_cons '/' s⟩
  · cases h

theorem readComparison_reads (s : List Char) :
    Reads s (ComparisonText s) (readComparison s) := by
  unfold readComparison
  split
  · next t =>
    have hblanks := blanks_skipBlanks t
    have hsuffix := (suffix_skipBlanks t).trans (List.suffix_cons '=' t)
    split
    · next u hu =>
      rw [hu] at hblanks hsuffix
      have hsymbol := readSymbol_reads .variableName u
      have hrest := (List.suffix_cons '$' u).trans hsuffix
      split
      · next stop h =>
        rw [h] at hsymbol
        exact List.IsSuffix.trans hsymbol hrest
      · next name r hr h =>
        rw [h] at hsymbol
        exact ⟨.some hblanks hsymbol.1 (blanks_skipBlanks r),
          (suffix_skipBlanks r).trans (hsymbol.2.trans hrest)⟩
    · exact hsuffix
  · exact ⟨.none, List.suffix_rfl⟩

mutual

theorem readSteps_reads (inPredicate : Bool) (axis : Axis) (s : List Char) :
    Reads s (fun steps r => StepsText axis s steps r ∧ atEnd inPredicate r = true)
      (readSteps inPredicate axis s) := by
  unfold readSteps
  split
  · next t =>
    split
    · exact List.suffix_rfl
    · next haxis =>
      have hchild : axis = .child := by
        cases axis with
        | child => rfl
        | descendant => exact absurd rfl haxis
      have hsymbol := readSymbol_reads .attributeSymbol t
      split
      · next stop h =>
        rw [h] at hsymbol
        exact List.IsSuffix.trans hsymbol (List.suffix_cons '@' t)
      · next symbol r hr h =>
        rw [h] at hsymbol
        have hrest := hsymbol.2.trans (List.suffix_cons '@' t)
        split
        · next hend =>
          rw [hchild]
          exact ⟨⟨.attribute hsymbol.1, hend⟩, hrest⟩
        · exact hrest
  · have htest := readNameTest_reads s
    split
    · next stop h =>
      rw [h] at htest
      exact htest
    · next test r₁ h₁ h =>
      rw [h] at htest
      have hpredicates := readPredicates_reads r₁
      split
      · next stop h =>
        rw [h] at hpredicates
        exact List.IsSuffix.trans hpredicates htest.2
      · next predicates r₂ h₂ h =>
        rw [h] at hpredicates
        have hr₂ := hpredicates.2.trans htest.2
        split
        · next hend => exact ⟨⟨.last htest.1 hpredicates.1, hend⟩, hr₂⟩
        · split
          · exact hr₂
          · next axis' r₃ h₃ h =>
            obtain ⟨hseparator, hsuffix⟩ := separatorText_of_readAxis? h
            split
            · exact List.nil_suffix
            · have hmore := readSteps_reads inPredicate axis' r₃
              have hr₃ := hsuffix.trans hr₂
              split
              · next stop h =>
                rw [h] at hmore
                exact List.IsSuffix.trans hmore hr₃
              · next more r₄ h₄ h =>
                rw [h] at hmore
                exact ⟨⟨.more htest.1 hpredicates.1 hseparator hmore.1.1, hmore.1.2⟩,
                  hmore.2.trans hr₃⟩
termination_by s.length
decreasing_by
  all_goals omega

theorem readPredicates_reads (s : List Char) :
    Reads s (PredicatesText s) (readPredicates s) := by
  unfold readPredicates
  split
  · next t =>
    have hblanks := blanks_skipBlanks t
    have hsuffix := (suffix_skipBlanks t).trans (List.suffix_cons '[' t)
    split
    · next u hu =>
      rw [hu] at hsuffix
      exact hsuffix
    · have hless : (skipBlanks t).length < ('[' :: t).length :=
        Nat.lt_succ_of_le (length_skipBlanks_le t)
      split
      · next r _ h =>
        exact (separatorText_of_readAxis? h).2.trans hsuffix
      · have hsteps := readSteps_reads true .child (skipBlanks t)
        split
        · next stop h =>
          rw [h] at hsteps
          exact List.IsSuffix.trans hsteps hsuffix
        · next path r₁ h₁ h =>
          rw [h] at hsteps
          have hr₁ := hsteps.2.trans hsuffix
          have hcomparison := readComparison_reads (skipBlanks r₁)
          have hbehind := (suffix_skipBlanks r₁).trans hr₁
          split
          · next stop h =>
            rw [h] at hcomparison
            exact List.IsSuffix.trans hcomparison hbehind
          · next equals r₂ h =>
            rw [h] at hcomparison
            split
            · next r₃ h₂ =>
              have hclosing : ']' :: r₃ <:+ '[' :: t := by
                rw [← h₂]
                exact hcomparison.2.trans hbehind
              have hr₃ := (List.suffix_cons ']' r₃).trans hclosing
              have hless : r₃.length < ('[' :: t).length :=
                Nat.lt_of_lt_of_le (Nat.lt_succ_self _) hclosing.length_le
              have hpredicates := readPredicates_reads r₃
              dsimp only
              split
              · next stop h =>
                rw [h] at hpredicates
                exact List.IsSuffix.trans hpredicates hr₃
              · next more r₄ h₄ h =>
                rw [h] at hpredicates
                have hclosed := hcomparison.1
                rw [h₂] at hclosed
                exact ⟨.more hblanks hsteps.1.1 (blanks_skipBlanks r₁) hclosed hpredicates.1,
                  hpredicates.2.trans hr₃⟩
            · exact List.suffix_rfl
  · exact ⟨.none, List.suffix_rfl⟩
termination_by s.length
decreasing_by
  all_goals
    subst_vars
    assumption

end

end PartPatch.Path
