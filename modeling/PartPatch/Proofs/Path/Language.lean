import Mathlib
import PartPatch.Proofs.Path.Completeness
import PartPatch.Proofs.Path.Literal
import PartPatch.Proofs.Path.Soundness

/-!
# Reading decides the language

A text is read as a path if and only if it is in the language, and then as the one path that it
denotes. Otherwise the place where reading stopped is one in the text.
-/

namespace PartPatch.Path

set_option autoImplicit false

variable {s r : List Char} {axis : Axis} {steps : List Step}

/-! ## Whole texts -/

/-- The axis of the first step of a path, and the text from that step on. -/
def start (t : List Char) : Axis × List Char :=
  match readAxis? t with
  | some (axis, ⟨r, _⟩) => (axis, r)
  | none => (.child, t)

/-- Reads steps that take up the whole text, blanks behind them apart. -/
def readLast (first : Axis × List Char) : Except Stop Path :=
  match readSteps false first.1 first.2 with
  | .error stop => .error stop
  | .ok (steps, ⟨r, _⟩) =>
    match skipBlanks r with
    | [] => .ok ⟨steps⟩
    | r => .error (unexpected r)

theorem readAll_eq (h : skipBlanks s ≠ []) : readAll s = readLast (start (skipBlanks s)) := by
  unfold readAll start
  split
  · next e => exact absurd e h
  · cases readAxis? (skipBlanks s)
    all_goals
      dsimp only [readLast]
      split
      · next h => simp only [h]
      · next steps r _ h =>
        cases hr : skipBlanks r with
        | nil => simp only [h, hr]
        | cons c t => simp only [h, hr]

theorem start_cases (s : List Char) :
    (start (skipBlanks s)).2 <:+ s ∧ ∀ steps r,
      StepsText (start (skipBlanks s)).1 (start (skipBlanks s)).2 steps r → Blanks r [] →
        PathText s ⟨steps⟩ := by
  have hbefore := blanks_skipBlanks s
  have hsuffix := suffix_skipBlanks s
  unfold start
  split
  · next axis r hlt h =>
    obtain ⟨hseparator, hrest⟩ := separatorText_of_readAxis? h
    exact ⟨hrest.trans hsuffix, fun _ _ text behind => .separated hbefore hseparator text behind⟩
  · exact ⟨hsuffix, fun _ _ text behind => .bare hbefore text behind⟩

theorem readAll_reads (s : List Char) :
    (∀ path, readAll s = .ok path → PathText s path) ∧
      ∀ stop, readAll s = .error stop → stop.rest <:+ s := by
  by_cases hs : skipBlanks s = []
  · have h : readAll s = .error ⟨[], .empty⟩ := by rw [readAll, hs]
    rw [h]
    refine ⟨?_, ?_⟩
    · rintro _ ⟨⟩
    · rintro _ ⟨⟩
      exact List.nil_suffix
  · obtain ⟨hsuffix, hpath⟩ := start_cases s
    have hsteps := readSteps_reads false (start (skipBlanks s)).1 (start (skipBlanks s)).2
    rw [readAll_eq hs, readLast]
    split
    · next stop h =>
      rw [h] at hsteps
      refine ⟨?_, ?_⟩
      · rintro _ ⟨⟩
      · rintro _ ⟨⟩
        exact List.IsSuffix.trans hsteps hsuffix
    · next steps r _ h =>
      rw [h] at hsteps
      have hbehind := blanks_skipBlanks r
      have hrest := (suffix_skipBlanks r).trans (hsteps.2.trans hsuffix)
      split
      · next e =>
        rw [e] at hbehind
        refine ⟨?_, ?_⟩
        · rintro _ ⟨⟩
          exact hpath steps r hsteps.1.1 hbehind
        · rintro _ ⟨⟩
      · refine ⟨?_, ?_⟩
        · rintro _ ⟨⟩
        · rintro _ ⟨⟩
          exact hrest

theorem readLast_gives (text : StepsText axis s steps r) (behind : Blanks r []) :
    readLast (axis, s) = .ok ⟨steps⟩ := by
  have hend : atEnd false r = true := by
    cases behind with
    | none => rfl
    | more blank _ => rw [atEnd_cons, blank, Bool.or_true]
  have hbehind : skipBlanks r = [] := behind.skipBlanks_eq (by rintro _ _ ⟨⟩)
  obtain ⟨hlt, hsteps⟩ := readSteps_gives text false hend
  simp only [readLast, hsteps, hbehind]

theorem readAll_of_pathText {path : Path} (h : PathText s path) : readAll s = .ok path := by
  cases h with
  | bare before text behind =>
    have hbefore := before.skipBlanks_of_begins text.begins (by decide)
    have hne := text.begins.ne_nil
    rw [← hbefore] at hne
    rw [readAll_eq hne, hbefore, start, readAxis?_eq_none (text.begins.ne_cons (by decide))]
    exact readLast_gives text behind
  | separated before separator text behind =>
    have hbefore := before.skipBlanks_of_begins separator.begins (by decide)
    have hne := separator.begins.ne_nil
    obtain ⟨hlt, haxis⟩ := readAxis?_gives separator (text.begins.ne_cons (by decide))
    rw [← hbefore] at hne
    rw [readAll_eq hne, hbefore, start, haxis]
    exact readLast_gives text behind

theorem read_eq_ok_iff {source : String} {path : Path} :
    read source = .ok path ↔ PathText source.toList path := by
  have hreads := readAll_reads source.toList
  constructor
  · intro h
    apply hreads.1
    unfold read at h
    split at h
    · next path' hread =>
      cases h
      exact hread
    · cases h
  · intro h
    rw [read, readAll_of_pathText h]

theorem position_of_read {source : String} {e : Error} (h : read source = .error e) :
    ∃ before after, source.toList = before ++ after ∧ e.position = Text.byteLength before := by
  have hreads := readAll_reads source.toList
  unfold read at h
  split at h
  · cases h
  · next stop hread =>
    cases h
    obtain ⟨before, hsource⟩ := hreads.2 stop hread
    refine ⟨before, stop.rest, hsource.symm, ?_⟩
    dsimp only
    rw [← hsource, Text.offsetOf_append]

/-! ## The language -/

/-- A text is read as a path if and only if the language says so, and as the only one that it says;
otherwise reading fails at a place in the text. -/
theorem read_accepts_language (source : String) :
    (∀ path, read source = .ok path ↔
      PathText source.toList path ∧ ∀ other, PathText source.toList other → other = path) ∧
    ((¬ ∃ path, PathText source.toList path) → ∃ e before after, read source = .error e ∧
      source.toList = before ++ after ∧ e.position = Text.byteLength before ∧
      e.position ≤ Text.byteLength source.toList) ∧
    ∀ path, read source = .ok path → LiteralFree false source.toList := by
  refine ⟨?_, ?_, ?_⟩
  · intro path
    constructor
    · intro h
      refine ⟨read_eq_ok_iff.1 h, ?_⟩
      intro other hother
      exact Except.ok.inj ((read_eq_ok_iff.2 hother).symm.trans h)
    · intro h
      exact read_eq_ok_iff.2 h.1
  · intro hnone
    cases h : read source with
    | ok path => exact absurd ⟨path, read_eq_ok_iff.1 h⟩ hnone
    | error e =>
      obtain ⟨before, after, hsource, hposition⟩ := position_of_read h
      refine ⟨e, before, after, rfl, hsource, hposition, ?_⟩
      rw [hposition, hsource, Text.byteLength_append]
      exact Nat.le_add_right _ _
  · intro path h
    exact (read_eq_ok_iff.1 h).literalFree

def nestedPath : Path :=
  ⟨[.element .descendant (.named "a"),
    .predicate [.element .child (.named "b"), .predicate [.attribute "c"] (some "d")] none,
    .attribute "e"]⟩

/-- Predicates inside predicates are read; a number to compare with is refused where it stands. -/
theorem read_accepts_language_nested :
    (read " //a[b[ @c=$d ] ]/@e" = .ok nestedPath ∧
      PathText " //a[b[ @c=$d ] ]/@e".toList nestedPath ∧
      LiteralFree false " //a[b[ @c=$d ] ]/@e".toList) ∧
    (¬ ∃ path, PathText "//a[@b = 3]".toList path) ∧
    ∃ e before after, read "//a[@b = 3]" = .error e ∧ e = ⟨9, .numericLiteral⟩ ∧
      "//a[@b = 3]".toList = before ++ after ∧ e.position = Text.byteLength before := by
  have accepted : read " //a[b[ @c=$d ] ]/@e" = .ok nestedPath := by cbv
  have refused : read "//a[@b = 3]" = .error ⟨9, .numericLiteral⟩ := by cbv
  have none : ¬ ∃ path, PathText "//a[@b = 3]".toList path := by
    rintro ⟨path, h⟩
    rw [read_eq_ok_iff.2 h] at refused
    cases refused
  obtain ⟨hiff, _, hfree⟩ := read_accepts_language " //a[b[ @c=$d ] ]/@e"
  obtain ⟨e, before, after, he, hsource, hposition, _⟩ :=
    (read_accepts_language "//a[@b = 3]").2.1 none
  refine ⟨⟨accepted, ((hiff nestedPath).1 accepted).1, hfree nestedPath accepted⟩, none,
    e, before, after, he, ?_, hsource, hposition⟩
  rw [refused] at he
  exact (Except.error.inj he).symm

end PartPatch.Path
