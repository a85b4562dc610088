import Mathlib
import PartPatch.Registry.Fingerprint
import PartPatch.Text.Number

/-!
# Numbers in base 16

The digits of a number, led by zeros up to a width, read back as the number, and a number that fits
takes the width and no more.
-/

namespace PartPatch

set_option autoImplicit false

namespace Text

theorem toList_replicate (n : Nat) (c : Char) :
    (replicate n (String.singleton c)).toList = List.replicate n c := by
  unfold replicate
  induction n with
  | zero => rfl
  | succ n ih => rw [List.replicate_succ, String.join_cons, String.toList_append, ih,
      String.toList_singleton, List.singleton_append, List.replicate_succ]

theorem hexValue?_digitChar {n : Nat} (h : n < 16) : hexValue? n.digitChar = some n := by
  have hall : ∀ d : Fin 16, hexValue? d.val.digitChar = some d.val := by decide
  exact hall ⟨n, h⟩

theorem hexadecimalValue?_concat {s : List Char} {n d : Nat} {c : Char}
    (hs : hexadecimalValue? s = some n) (hc : hexValue? c = some d) :
    hexadecimalValue? (s ++ [c]) = some (n * 16 + d) := by
  rw [hexadecimalValue?] at hs ⊢
  rw [List.foldlM_append, hs]
  simp [hc]

/-- The digits of a number in base 16 read back as the number. -/
theorem hexadecimalValue?_toDigits (n : Nat) : hexadecimalValue? (Nat.toDigits 16 n) = some n := by
  induction n using Nat.strongRecOn with
  | ind n ih =>
    by_cases h : n < 16
    · have hempty : hexadecimalValue? [] = some 0 := rfl
      have hone := hexadecimalValue?_concat hempty (hexValue?_digitChar h)
      rw [Nat.zero_mul, Nat.zero_add] at hone
      rw [Nat.toDigits_of_lt_base h]
      exact hone
    · have hdigit : n % 16 < 16 := Nat.mod_lt n (by decide)
      have hrest := ih (n / 16) (Nat.div_lt_self (by omega) (by decide))
      rw [Nat.toDigits_of_base_le (by decide) (Nat.le_of_not_lt h),
        hexadecimalValue?_concat hrest (hexValue?_digitChar hdigit), Nat.div_add_mod']

theorem hexadecimalValue?_zeros (count : Nat) (s : List Char) :
    hexadecimalValue? (List.replicate count '0' ++ s) = hexadecimalValue? s := by
  induction count with
  | zero => rfl
  | succ count ih =>
    rw [List.replicate_succ, List.cons_append, ← ih]
    rfl

end Text

namespace Registry

theorem toList_hexadecimal (width n : Nat) : (hexadecimal width n).toList =
    List.replicate (width - (Nat.toDigits 16 n).length) '0' ++ Nat.toDigits 16 n := by
  rw [hexadecimal, String.toList_append, String.toList_ofList, String.length_ofList]
  congr 1
  exact Text.toList_replicate _ '0'

theorem hexadecimal_injective {width n m : Nat} (h : hexadecimal width n = hexadecimal width m) :
    n = m := by
  have hn : Text.hexadecimalValue? (hexadecimal width n).toList = some n := by
    rw [toList_hexadecimal, Text.hexadecimalValue?_zeros, Text.hexadecimalValue?_toDigits]
  have hm : Text.hexadecimalValue? (hexadecimal width m).toList = some m := by
    rw [toList_hexadecimal, Text.hexadecimalValue?_zeros, Text.hexadecimalValue?_toDigits]
  rw [h, hm] at hn
  exact (Option.some.inj hn).symm

/-- A number that fits in the width takes the whole of it. -/
theorem length_hexadecimal {width n : Nat} (hwidth : 0 < width) (h : n < 16 ^ width) :
    (hexadecimal width n).toList.length = width := by
  have hle : (Nat.toDigits 16 n).length ≤ width :=
    (Nat.length_toDigits_le_iff (by decide) hwidth).2 h
  rw [toList_hexadecimal, List.length_append, List.length_replicate]
  omega

end Registry

end PartPatch
