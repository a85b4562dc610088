import PartPatch.Text.Number
import PartPatch.Toml.Basic

/-!
# TOML numbers, dates and truth values

A value that is neither quoted nor bracketed is one unbroken text. Each function here recognises the
texts of one type as a whole.
-/

namespace PartPatch.Toml

set_option autoImplicit false

/-- The digits of a numeral, in which single underscores may stand between digits. -/
def digits? (isDigit : Char → Bool) : List Char → Option (List Char)
  | [] => none
  | [c] => if isDigit c then some [c] else none
  | c :: '_' :: rest => if isDigit c then (digits? isDigit rest).map (c :: ·) else none
  | c :: rest => if isDigit c then (digits? isDigit rest).map (c :: ·) else none

/-- The digits of a decimal numeral, which has no leading zero. -/
def decimal? (s : List Char) : Option (List Char) :=
  match digits? Char.isDigit s with
  | some ('0' :: _ :: _) => none
  | result => result

/-- The sign, `true` for minus, and what follows it. -/
def splitSign : List Char → Bool × List Char
  | '+' :: s => (false, s)
  | '-' :: s => (true, s)
  | s => (false, s)

/-- The value of a numeral in another base, its digits given by their values. -/
def inBase? (base : Nat) (s : List Char) : Option Nat :=
  let value? := fun c => (Text.hexValue? c).filter (· < base)
  match digits? (fun c => (value? c).isSome) s with
  | none => none
  | some digits => some (digits.foldl (fun n c => n * base + (value? c).getD 0) 0)

def maxInteger : Int := Int.pow 2 63 - 1

def minInteger : Int := -Int.pow 2 63

def inRange? (n : Int) : Option Int :=
  if minInteger ≤ n ∧ n ≤ maxInteger then some n else none

def integer? (s : List Char) : Option Int :=
  match s with
  | '0' :: 'x' :: digits => ((inBase? 16 digits).map Int.ofNat).bind inRange?
  | '0' :: 'o' :: digits => ((inBase? 8 digits).map Int.ofNat).bind inRange?
  | '0' :: 'b' :: digits => ((inBase? 2 digits).map Int.ofNat).bind inRange?
  | s =>
    let (negative, rest) := splitSign s
    match decimal? rest with
    | none => none
    | some digits =>
      let n : Int := Text.decimalValue digits
      inRange? (if negative then -n else n)

/-- The number nearest to `digits · 10 ^ exponent`, unless that is too large. -/
def nearest? (digits : List Char) (exponent : Int) : Option Float :=
  let n := Text.decimalValue digits
  let magnitude : Int := (toString n).length + exponent
  if n = 0 ∨ magnitude < -330 then some 0.0
  else if 310 < magnitude then none
  else
    let x := Float.ofScientific n (exponent < 0) exponent.natAbs
    if x.isInf then none else some x

/-- Splits a numeral at its exponent mark. -/
def splitExponent (s : List Char) : List Char × Option (List Char) :=
  match s.dropWhile (fun c => c != 'e' && c != 'E') with
  | [] => (s, none)
  | _ :: rest => (s.takeWhile (fun c => c != 'e' && c != 'E'), some rest)

def exponent? (s : List Char) : Option Int :=
  let (negative, rest) := splitSign s
  (digits? Char.isDigit rest).map fun digits =>
    let n : Int := Text.decimalValue digits
    if negative then -n else n

/-- The whole and the fractional digits of a numeral; a point has digits on both sides. -/
def significand? (s : List Char) : Option (List Char × List Char) :=
  match s.dropWhile (· != '.') with
  | [] => (decimal? s).map fun whole => (whole, [])
  | _ :: fraction => do
    let whole ← decimal? (s.takeWhile (· != '.'))
    let fraction ← digits? Char.isDigit fraction
    return (whole, fraction)

def unsignedFloat? (s : List Char) : Option Float :=
  if s = ['i', 'n', 'f'] then some (1.0 / 0.0)
  else if s = ['n', 'a', 'n'] then some (0.0 / 0.0)
  else do
    let (number, exponentText) := splitExponent s
    let (whole, fraction) ← significand? number
    let exponent ← match exponentText with
      | none => if fraction = [] then none else some 0
      | some text => exponent? text
    nearest? (whole ++ fraction) (exponent - fraction.length)

def float? (s : List Char) : Option Float :=
  let (negative, rest) := splitSign s
  (unsignedFloat? rest).map fun x => if negative then -x else x

/-- The value of two digits, if it is at most `limit`. -/
def twoDigits? (limit : Nat) (a b : Char) : Option Nat :=
  let n := Text.decimalValue [a, b]
  if a.isDigit ∧ b.isDigit ∧ n ≤ limit then some n else none

def daysInMonth (year month : Nat) : Nat :=
  if month = 2 then
    if year % 4 = 0 ∧ (year % 100 ≠ 0 ∨ year % 400 = 0) then 29 else 28
  else if month = 4 ∨ month = 6 ∨ month = 9 ∨ month = 11 then 30
  else 31

/-- Reads a date at the start of a text. -/
def readDate? : List Char → Option (Date × List Char)
  | y₁ :: y₂ :: y₃ :: y₄ :: '-' :: m₁ :: m₂ :: '-' :: d₁ :: d₂ :: rest => do
    let century ← twoDigits? 99 y₁ y₂
    let year := century * 100 + (← twoDigits? 99 y₃ y₄)
    let month ← twoDigits? 12 m₁ m₂
    let day ← twoDigits? (daysInMonth year month) d₁ d₂
    if month = 0 ∨ day = 0 then none else return (⟨year, month, day⟩, rest)
  | _ => none

/-- Reads the fraction of a second, of which nine digits count. -/
def readFraction? (s : List Char) : Option (Nat × List Char) :=
  match s with
  | '.' :: rest =>
    match rest.takeWhile Char.isDigit with
    | [] => none
    | digits =>
      let kept := digits.take 9
      some (Text.decimalValue kept * Nat.pow 10 (9 - kept.length), rest.dropWhile Char.isDigit)
  | s => some (0, s)

/-- Reads a time at the start of a text; its seconds may be left out. -/
def readTime? : List Char → Option (Time × List Char)
  | h₁ :: h₂ :: ':' :: m₁ :: m₂ :: rest => do
    let hour ← twoDigits? 23 h₁ h₂
    let minute ← twoDigits? 59 m₁ m₂
    match rest with
    | ':' :: s₁ :: s₂ :: rest =>
      let second ← twoDigits? 60 s₁ s₂
      let (nanosecond, rest) ← readFraction? rest
      return (⟨hour, minute, second, nanosecond⟩, rest)
    | ':' :: _ => none
    | rest => return (⟨hour, minute, 0, 0⟩, rest)
  | _ => none

def offset? : List Char → Option (Option Offset)
  | [] => some none
  | ['Z'] => some (some .universal)
  | ['z'] => some (some .universal)
  | sign :: h₁ :: h₂ :: ':' :: m₁ :: [m₂] => do
    let hour ← twoDigits? 23 h₁ h₂
    let minute ← twoDigits? 59 m₁ m₂
    if sign = '+' then return some (.minutes false (hour * 60 + minute))
    else if sign = '-' then return some (.minutes true (hour * 60 + minute))
    else none
  | _ => none

def datetime? (s : List Char) : Option Datetime :=
  match readDate? s with
  | none =>
    match readTime? s with
    | some (time, []) => some ⟨none, some time, none⟩
    | _ => none
  | some (date, []) => some ⟨some date, none, none⟩
  | some (date, separator :: rest) =>
    if separator = 'T' ∨ separator = 't' ∨ separator = ' ' then do
      let (time, rest) ← readTime? rest
      let offset ← offset? rest
      return ⟨some date, some time, offset⟩
    else none

/-- The value of an unquoted text. -/
def scalar? (s : List Char) : Option Value :=
  if s = ['t', 'r', 'u', 'e'] then some (.boolean true)
  else if s = ['f', 'a', 'l', 's', 'e'] then some (.boolean false)
  else match integer? s with
    | some n => some (.integer n)
    | none =>
      match float? s with
      | some x => some (.float x)
      | none => (datetime? s).map .datetime

end PartPatch.Toml
