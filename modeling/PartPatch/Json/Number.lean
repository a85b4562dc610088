import PartPatch.Text.Number
import PartPatch.Json.Basic

/-!
# Reading JSON numbers

An integer that fits in 64 bits stays an integer; `-0` and all else are binary64 numbers. Their
digits are gathered in a 64-bit significand: a digit that no longer fits, and those after it, only
count towards the exponent, or not at all behind the point.
-/

namespace PartPatch.Json

set_option autoImplicit false

/-- The decimal `significand · 10 ^ exponent`. -/
structure Scaled where
  significand : Nat
  exponent : Int
deriving DecidableEq, Repr

def maxSignificand : Nat := UInt64.size - 1

def digitValue (c : Char) : Nat :=
  c.toNat - 48

def Scaled.ofIntegerDigits (significand : Nat) : List Char → Scaled
  | [] => ⟨significand, 0⟩
  | c :: cs =>
    let next := significand * 10 + digitValue c
    if next ≤ maxSignificand then ofIntegerDigits next cs else ⟨significand, cs.length + 1⟩

def Scaled.addFraction (x : Scaled) : List Char → Scaled
  | [] => x
  | c :: cs =>
    let next := x.significand * 10 + digitValue c
    if next ≤ maxSignificand then addFraction ⟨next, x.exponent - 1⟩ cs else x

/-- The binary64 power of ten, for exponents up to 308. -/
def powerOfTen (n : Nat) : Float :=
  Float.ofScientific 1 false n

/-- Scales a number by a power of ten with one multiplication or division, dividing by `10 ^ 308`
as often as needed before; `none` if the result is too large. -/
def scaleFloat? (x : Float) (exponent : Int) : Option Float :=
  if exponent.natAbs ≤ 308 then
    if 0 ≤ exponent then
      let y := x * powerOfTen exponent.natAbs
      if y.isInf then none else some y
    else some (x / powerOfTen exponent.natAbs)
  else if x == 0 then some x
  else if 0 ≤ exponent then none
  else scaleFloat? (x / powerOfTen 308) (exponent + 308)
termination_by exponent.natAbs
decreasing_by omega

def Scaled.toFloat? (x : Scaled) : Option Float :=
  scaleFloat? x.significand.toUInt64.toFloat x.exponent

/-- The number written without point and exponent. -/
def ofInteger? (negative : Bool) (digits : List Char) : Option Json :=
  let n := Text.decimalValue digits
  if negative then
    if 0 < n ∧ n ≤ Nat.pow 2 63 then some (.integer (-n))
    else (Scaled.ofIntegerDigits 0 digits).toFloat?.map fun x => .real (-x)
  else if n ≤ maxSignificand then some (.integer n)
  else (Scaled.ofIntegerDigits 0 digits).toFloat?.map .real

/-- Reads the digits of an exponent after `e`, with an optional sign. -/
def readExponent? (s : List Char) : Option (Int × { r : List Char // r.length ≤ s.length }) :=
  let (negative, ⟨t, ht⟩) : Bool × { r : List Char // r.length ≤ s.length } := match s with
    | '+' :: t => (false, ⟨t, Nat.le_succ _⟩)
    | '-' :: t => (true, ⟨t, Nat.le_succ _⟩)
    | t => (false, ⟨t, Text.length_le_self _⟩)
  match t.takeWhile Char.isDigit with
  | [] => none
  | digits =>
    let n : Int := Text.decimalValue digits
    some (if negative then -n else n,
      ⟨t.dropWhile Char.isDigit, Nat.le_trans (Text.length_dropWhile_le _ t) ht⟩)

/-- Reads what follows the significand: the exponent, if there is one. -/
def readScaled? (negative : Bool) (x : Scaled) (s : List Char) :
    Option (Json × { r : List Char // r.length ≤ s.length }) :=
  let sign := fun y : Float => Json.real (if negative then -y else y)
  match s with
  | c :: t =>
    if c = 'e' ∨ c = 'E' then
      match readExponent? t with
      | none => none
      | some (e, ⟨r, hr⟩) =>
        Scaled.toFloat? ⟨x.significand, x.exponent + e⟩ |>.map fun y =>
          (sign y, ⟨r, Nat.le_succ_of_le hr⟩)
    else x.toFloat?.map fun y => (sign y, ⟨c :: t, Text.length_le_self _⟩)
  | [] => x.toFloat?.map fun y => (sign y, ⟨[], Text.length_le_self _⟩)

/-- Reads a number without its sign. -/
def readUnsigned? (negative : Bool) (s : List Char) :
    Option (Json × { r : List Char // r.length < s.length }) :=
  match s with
  | [] => none
  | c :: t =>
    if ¬ c.isDigit then none
    else
      let more := if c = '0' then [] else t.takeWhile Char.isDigit
      let rest := if c = '0' then t else t.dropWhile Char.isDigit
      have hrest : rest.length ≤ t.length := by
        by_cases h : c = '0'
        · simp [rest, h]
        · simpa [rest, h] using Text.length_dropWhile_le _ t
      match rest, hrest with
      | [], _ => (ofInteger? negative (c :: more)).map fun v => (v, ⟨[], Nat.succ_pos _⟩)
      | d :: u, hu =>
        if c = '0' ∧ d.isDigit then none
        else if d = '.' then
          match u.takeWhile Char.isDigit with
          | [] => none
          | fraction =>
            let x := (Scaled.ofIntegerDigits 0 (c :: more)).addFraction fraction
            (readScaled? negative x (u.dropWhile Char.isDigit)).map fun (v, ⟨r, hr⟩) =>
              (v, ⟨r, by
                have := Text.length_dropWhile_le Char.isDigit u
                simp only [List.length_cons] at hu ⊢
                omega⟩)
        else if d = 'e' ∨ d = 'E' then
          (readScaled? negative (Scaled.ofIntegerDigits 0 (c :: more)) (d :: u)).map
            fun (v, ⟨r, hr⟩) => (v, ⟨r, by simp only [List.length_cons] at *; omega⟩)
        else (ofInteger? negative (c :: more)).map fun v =>
          (v, ⟨d :: u, by simp only [List.length_cons] at *; omega⟩)

def readNumber? (s : List Char) : Option (Json × { r : List Char // r.length < s.length }) :=
  match s with
  | '-' :: t => (readUnsigned? true t).map fun (v, ⟨r, hr⟩) => (v, ⟨r, Text.length_lt_cons_of_lt hr⟩)
  | s => readUnsigned? false s

end PartPatch.Json
