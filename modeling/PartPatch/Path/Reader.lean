import PartPatch.Text.Basic
import PartPatch.Symbol
import PartPatch.Path.Basic

/-!
# Reading a path

A path is read from left to right; predicates nest to any depth. A failure keeps the text that
remained at the place where reading stopped, so that its offset can be told, and its cause.
Literal values are refused: a predicate compares with a variable only.
-/

namespace PartPatch.Path

set_option autoImplicit false

/-- What a symbol is read for. -/
inductive Role where
  | elementSymbol
  | attributeSymbol
  | variableName
deriving DecidableEq, Repr

inductive Cause where
  | empty
  | quotedLiteral
  | numericLiteral
  | unexpected (found : Char)
  | endOfPath
  | missing (role : Role) (found : Option Char)
  | absoluteInPredicate
  | attributeAfterDescendant
  | attributeNotLast
  | danglingSeparator
  | emptyPredicate
  | unbalancedPredicate
deriving DecidableEq, Repr

/-- Where reading stopped: the text that was left, and why. -/
structure Stop where
  rest : List Char
  cause : Cause
deriving DecidableEq, Repr

structure Error where
  position : Nat
  cause : Cause
deriving DecidableEq, Repr

def Role.text : Role → String
  | .elementSymbol => "element symbol"
  | .attributeSymbol => "attribute symbol"
  | .variableName => "variable name"

def Cause.text : Cause → String
  | .empty => "empty path"
  | .quotedLiteral => "literal values are not allowed; compare against a $variable"
  | .numericLiteral => "numeric literals are not allowed; compare against a $variable"
  | .unexpected c => "unexpected character '" ++ c.toString ++ "'"
  | .endOfPath => "unexpected end of path"
  | .missing role none => "expected " ++ role.text
  | .missing role (some c) => "expected " ++ role.text ++ ", found '" ++ c.toString ++ "'"
  | .absoluteInPredicate => "predicate paths are relative and cannot start with '/'"
  | .attributeAfterDescendant => "attribute step cannot follow '//'"
  | .attributeNotLast => "attribute step must be the last step"
  | .danglingSeparator => "dangling '/' at end of path"
  | .emptyPredicate => "empty predicate"
  | .unbalancedPredicate => "unbalanced '[' in predicate"

def Error.message (e : Error) : String :=
  "at offset " ++ toString e.position ++ ": " ++ e.cause.text

/-- The character whose code is the first byte of the UTF-8 form. -/
def leadingByte (c : Char) : Char :=
  let n := c.toNat
  if n < 0x80 then c
  else if n < 0x800 then Char.ofNat (0xC0 + n / 0x40)
  else if n < 0x10000 then Char.ofNat (0xE0 + n / 0x1000)
  else Char.ofNat (0xF0 + n / 0x40000)

/-- Why the text that remains cannot be continued. -/
def unexpectedCause : List Char → Cause
  | [] => .endOfPath
  | c :: _ =>
    if c = '\x27' ∨ c = '\x22' then .quotedLiteral
    else if c.isDigit then .numericLiteral
    else .unexpected (leadingByte c)

def unexpected (s : List Char) : Stop :=
  ⟨s, unexpectedCause s⟩

def skipBlanks (s : List Char) : List Char :=
  s.dropWhile Text.isAsciiBlank

theorem length_skipBlanks_le (s : List Char) : (skipBlanks s).length ≤ s.length :=
  Text.length_dropWhile_le _ s

/-- What remains of a text after something was read from it. -/
abbrev Shorter (s : List Char) := { r : List Char // r.length < s.length }

/-- Reads the longest run of symbol characters; it may not be empty or start with a digit. -/
def readSymbol (role : Role) : (s : List Char) → Except Stop (String × Shorter s)
  | [] => .error ⟨[], .missing role none⟩
  | c :: s =>
    if Symbol.isChar c then
      if c.isDigit then .error ⟨c :: s, .numericLiteral⟩
      else .ok (String.ofList (c :: s.takeWhile Symbol.isChar),
        ⟨s.dropWhile Symbol.isChar, Nat.lt_succ_of_le (Text.length_dropWhile_le _ s)⟩)
    else .error ⟨c :: s, .missing role (some (leadingByte c))⟩

def readNameTest : (s : List Char) → Except Stop (NameTest × Shorter s)
  | '*' :: s => .ok (.any, ⟨s, Text.length_lt_cons _ _⟩)
  | s => (readSymbol .elementSymbol s).map fun (symbol, r) => (.named symbol, r)

def readAxis? : (s : List Char) → Option (Axis × Shorter s)
  | '/' :: '/' :: s => some (.descendant, ⟨s, Text.length_lt_cons_of_lt (Text.length_lt_cons _ _)⟩)
  | '/' :: s => some (.child, ⟨s, Text.length_lt_cons _ _⟩)
  | _ => none

/-- Whether a list of steps may end here. -/
def atEnd (inPredicate : Bool) : List Char → Bool
  | [] => true
  | c :: _ => (inPredicate && (c == ']' || c == '=')) || Text.isAsciiBlank c

/-- Reads the comparison that may follow the steps of a predicate. -/
def readComparison (s : List Char) :
    Except Stop (Option String × { r : List Char // r.length ≤ s.length }) :=
  match s with
  | '=' :: t =>
    match h : skipBlanks t with
    | '$' :: u =>
      match readSymbol .variableName u with
      | .error stop => .error stop
      | .ok (name, ⟨r, hr⟩) =>
        .ok (some name, ⟨skipBlanks r, by
          have h₁ := length_skipBlanks_le t
          have h₂ := length_skipBlanks_le r
          simp only [h, List.length_cons] at h₁ ⊢
          omega⟩)
    | u => .error (unexpected u)
  | s => .ok (none, ⟨s, Nat.le_refl _⟩)

mutual

/-- Reads steps, the first of them along `axis`. -/
def readSteps (inPredicate : Bool) (axis : Axis) (s : List Char) :
    Except Stop (List Step × Shorter s) :=
  match s with
  | '@' :: t =>
    if axis = .descendant then .error ⟨s, .attributeAfterDescendant⟩
    else match readSymbol .attributeSymbol t with
      | .error stop => .error stop
      | .ok (symbol, ⟨r, hr⟩) =>
        if atEnd inPredicate r then .ok ([.attribute symbol], ⟨r, Text.length_lt_cons_of_lt hr⟩)
        else .error ⟨r, .attributeNotLast⟩
  | s =>
    match readNameTest s with
    | .error stop => .error stop
    | .ok (test, ⟨r₁, h₁⟩) =>
      match readPredicates r₁ with
      | .error stop => .error stop
      | .ok (predicates, ⟨r₂, h₂⟩) =>
        if atEnd inPredicate r₂ then
          .ok (.element axis test :: predicates, ⟨r₂, by omega⟩)
        else match readAxis? r₂ with
          | none => .error (unexpected r₂)
          | some (next, ⟨r₃, h₃⟩) =>
            if r₃ = [] then .error ⟨[], .danglingSeparator⟩
            else match readSteps inPredicate next r₃ with
              | .error stop => .error stop
              | .ok (more, ⟨r₄, h₄⟩) =>
                .ok (.element axis test :: predicates ++ more, ⟨r₄, by omega⟩)
termination_by s.length
decreasing_by
  all_goals omega

/-- Reads the predicates that follow an element step. -/
def readPredicates (s : List Char) :
    Except Stop (List Step × { r : List Char // r.length ≤ s.length }) :=
  match s with
  | '[' :: t =>
    match hu : skipBlanks t with
    | ']' :: u => .error ⟨']' :: u, .emptyPredicate⟩
    | u =>
      match readAxis? u with
      | some (_, ⟨r, _⟩) => .error ⟨r, .absoluteInPredicate⟩
      | none =>
        match readSteps true .child u with
        | .error stop => .error stop
        | .ok (path, ⟨r₁, h₁⟩) =>
          match readComparison (skipBlanks r₁) with
          | .error stop => .error stop
          | .ok (equals, r₂) =>
            match h₂ : r₂.val with
            | ']' :: r₃ =>
              have hlt : r₃.length < t.length := by
                have ht := length_skipBlanks_le t
                have hr := length_skipBlanks_le r₁
                have h₃ := r₂.property
                rw [hu] at ht
                rw [h₂, List.length_cons] at h₃
                omega
              match readPredicates r₃ with
              | .error stop => .error stop
              | .ok (more, ⟨r₄, h₄⟩) =>
                .ok (.predicate path equals :: more, ⟨r₄, by simp only [List.length_cons]; omega⟩)
            | _ => .error ⟨'[' :: t, .unbalancedPredicate⟩
  | s => .ok ([], ⟨s, Nat.le_refl _⟩)
termination_by s.length
decreasing_by
  · have := length_skipBlanks_le t
    rw [hu] at this
    exact Nat.lt_succ_of_le this
  · exact Nat.lt_succ_of_lt hlt

end

/-- Reads a whole text as a path. -/
def readAll (s : List Char) : Except Stop Path :=
  match skipBlanks s with
  | [] => .error ⟨[], .empty⟩
  | t =>
    let (axis, u) := match readAxis? t with
      | some (axis, ⟨r, _⟩) => (axis, r)
      | none => (.child, t)
    match readSteps false axis u with
    | .error stop => .error stop
    | .ok (steps, ⟨r, _⟩) =>
      match skipBlanks r with
      | [] => .ok ⟨steps⟩
      | r => .error (unexpected r)

def read (source : String) : Except Error Path :=
  match readAll source.toList with
  | .ok path => .ok path
  | .error stop => .error ⟨Text.offsetOf source.toList stop.rest, stop.cause⟩

end PartPatch.Path
