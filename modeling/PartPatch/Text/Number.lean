import PartPatch.Text.Basic

/-!
# Numbers in texts

The values of digits, and decimal numbers that fit in 64 bits. In a number a plus sign and leading
zeros are allowed.
-/

namespace PartPatch.Text

set_option autoImplicit false

/-- The greatest number that is read. -/
def maxNumber : Nat := UInt64.size - 1

/-- The value of a list of decimal digits. -/
def decimalValue (digits : List Char) : Nat :=
  digits.foldl (fun n c => 10 * n + (c.toNat - '0'.toNat)) 0

/-- The value of a hexadecimal digit in either case. -/
def hexValue? (c : Char) : Option Nat :=
  if c.isDigit then some (c.toNat - 48)
  else if 'a' ≤ c ∧ c ≤ 'f' then some (c.toNat - 87)
  else if 'A' ≤ c ∧ c ≤ 'F' then some (c.toNat - 55)
  else none

/-- The value of a list of hexadecimal digits. -/
def hexadecimalValue? (digits : List Char) : Option Nat :=
  digits.foldlM (fun n c => (hexValue? c).map fun d => n * 16 + d) 0

def digits? (s : List Char) : Option Nat :=
  if s ≠ [] ∧ s.all Char.isDigit ∧ decimalValue s ≤ maxNumber then some (decimalValue s) else none

def number? : List Char → Option Nat
  | '+' :: s => digits? s
  | s => digits? s

end PartPatch.Text
