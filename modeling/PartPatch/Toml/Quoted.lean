import PartPatch.Text.Number

/-!
# TOML strings

Basic strings know escapes, literal strings do not. Either kind may be written between three quotes
and then spans lines: a line break right after the opening quotes is dropped, a backslash at the end
of a line joins it with the next text, and up to two quotes may stand in front of the closing ones.
-/

namespace PartPatch.Toml

set_option autoImplicit false

/-- Control characters other than the tab stand in no string and no comment. -/
def isAllowed (c : Char) : Bool :=
  c == '\t' || (0x20 ≤ c.toNat && c.toNat != 0x7F)

def isSpace (c : Char) : Bool :=
  c == ' ' || c == '\t'

abbrev Shorter (s : List Char) := { r : List Char // r.length < s.length }

/-- The character with the code that hexadecimal digits give. -/
def codePoint? (digits : List Char) : Option Char := do
  let n ← Text.hexadecimalValue? digits
  if n < 0xD800 ∨ (0xE000 ≤ n ∧ n < 0x110000) then some (Char.ofNat n) else none

/-- Reads an escape after its backslash. -/
def readEscape? (s : List Char) : Option (Char × Shorter s) :=
  let hex (count : Nat) (t : List Char) (ht : t.length < s.length) : Option (Char × Shorter s) :=
    if (t.take count).length = count then
      (codePoint? (t.take count)).map fun c =>
        (c, ⟨t.drop count, by simp only [List.length_drop]; omega⟩)
    else none
  match s, hex with
  | [], _ => none
  | c :: t, hex =>
    let one (x : Char) : Option (Char × Shorter (c :: t)) := some (x, ⟨t, Text.length_lt_cons _ _⟩)
    match c with
    | 'b' => one '\x08'
    | 't' => one '\t'
    | 'n' => one '\n'
    | 'f' => one '\x0c'
    | 'r' => one '\r'
    | 'e' => one '\x1b'
    | '\x22' => one '\x22'
    | '\\' => one '\\'
    | 'x' => hex 2 t (Text.length_lt_cons _ _)
    | 'u' => hex 4 t (Text.length_lt_cons _ _)
    | 'U' => hex 8 t (Text.length_lt_cons _ _)
    | _ => none

/-- Reads a basic string on one line after its opening quote; `acc` holds the characters so far,
last first. -/
def readBasic? (acc : List Char) (s : List Char) : Option (String × Shorter s) :=
  match s with
  | [] => none
  | c :: t =>
    if c = '\x22' then some (String.ofList acc.reverse, ⟨t, Text.length_lt_cons _ _⟩)
    else if c = '\\' then
      match readEscape? t with
      | none => none
      | some (x, ⟨u, hu⟩) =>
        (readBasic? (x :: acc) u).map fun (v, ⟨r, hr⟩) =>
          (v, ⟨r, by simp only [List.length_cons]; omega⟩)
    else if isAllowed c then
      (readBasic? (c :: acc) t).map fun (v, ⟨r, hr⟩) => (v, ⟨r, Text.length_lt_cons_of_lt hr⟩)
    else none
termination_by s.length

/-- Reads a literal string on one line after its opening quote. -/
def readLiteral? (s : List Char) : Option (String × Shorter s) :=
  match h : s.dropWhile (fun c => c != '\x27' && isAllowed c) with
  | '\x27' :: rest =>
    some (String.ofList (s.takeWhile (fun c => c != '\x27' && isAllowed c)), ⟨rest, by
      have := Text.length_dropWhile_le (fun c => c != '\x27' && isAllowed c) s
      simp only [h, List.length_cons] at this
      omega⟩)
  | _ => none

/-- The line break at the start of a text, with what follows it. -/
def lineBreak? : (s : List Char) → Option (List Char × Shorter s)
  | '\n' :: t => some (['\n'], ⟨t, Text.length_lt_cons _ _⟩)
  | '\r' :: '\n' :: t => some (['\r', '\n'], ⟨t, Text.length_lt_cons_of_lt (Text.length_lt_cons _ _)⟩)
  | _ => none

/-- The text without a line break at its start. -/
def withoutBreak (s : List Char) : List Char :=
  match lineBreak? s with
  | some (_, ⟨r, _⟩) => r
  | none => s

theorem length_withoutBreak_le (s : List Char) : (withoutBreak s).length ≤ s.length := by
  unfold withoutBreak
  split
  · next r hr _ => omega
  · exact Nat.le_refl _

/-- Skips blanks and line breaks. -/
def skipBlankLines (s : List Char) : List Char :=
  match h : lineBreak? (s.dropWhile isSpace) with
  | none => s.dropWhile isSpace
  | some (_, ⟨r, hr⟩) =>
    have : r.length < s.length := by
      have := Text.length_dropWhile_le isSpace s
      omega
    skipBlankLines r
termination_by s.length

theorem length_skipBlankLines_le (s : List Char) : (skipBlankLines s).length ≤ s.length := by
  fun_induction skipBlankLines s with
  | case1 s _ => exact Text.length_dropWhile_le isSpace s
  | case2 s _ r hr _ hlt ih => exact Nat.le_trans ih (Nat.le_of_lt hlt)

/-- What follows a backslash that joins lines: blanks, a line break, and all blanks and line breaks
after it. -/
def joinedLines? (s : List Char) : Option { r : List Char // r.length ≤ s.length } :=
  match lineBreak? (s.dropWhile isSpace) with
  | none => none
  | some (_, ⟨r, hr⟩) => some ⟨skipBlankLines r, by
      have h₁ := Text.length_dropWhile_le isSpace s
      have h₂ := length_skipBlankLines_le r
      omega⟩

/-- Reads a string that spans lines, after its opening quotes. -/
def readLong? (quote : Char) (acc : List Char) (s : List Char) : Option (String × Shorter s) :=
  match s with
  | [] => none
  | c :: t =>
    if c = quote then
      -- Of three to five quotes the last three close the string.
      match t with
      | a :: b :: t₃ =>
        if a = quote ∧ b = quote then
          match t₃ with
          | d :: e :: t₅ =>
            if d = quote ∧ e = quote then
              some (String.ofList (quote :: quote :: acc).reverse, ⟨t₅, by
                simp only [List.length_cons]; omega⟩)
            else if d = quote then
              some (String.ofList (quote :: acc).reverse, ⟨e :: t₅, by
                simp only [List.length_cons]; omega⟩)
            else some (String.ofList acc.reverse, ⟨d :: e :: t₅, by
                simp only [List.length_cons]; omega⟩)
          | [d] =>
            if d = quote then some (String.ofList (quote :: acc).reverse, ⟨[], by simp⟩)
            else some (String.ofList acc.reverse, ⟨[d], by
              simp only [List.length_cons, List.length_nil]; omega⟩)
          | [] => some (String.ofList acc.reverse, ⟨[], by simp⟩)
        else (readLong? quote (c :: acc) (a :: b :: t₃)).map fun (v, ⟨r, hr⟩) =>
          (v, ⟨r, Text.length_lt_cons_of_lt hr⟩)
      | _ => none
    else if c = '\\' ∧ quote = '\x22' then
      match joinedLines? t with
      | some ⟨u, hu⟩ =>
        (readLong? quote acc u).map fun (v, ⟨r, hr⟩) =>
          (v, ⟨r, by simp only [List.length_cons]; omega⟩)
      | none =>
        match readEscape? t with
        | none => none
        | some (x, ⟨u, hu⟩) =>
          (readLong? quote (x :: acc) u).map fun (v, ⟨r, hr⟩) =>
            (v, ⟨r, by simp only [List.length_cons]; omega⟩)
    else if isAllowed c then
      (readLong? quote (c :: acc) t).map fun (v, ⟨r, hr⟩) => (v, ⟨r, Text.length_lt_cons_of_lt hr⟩)
    else
      match lineBreak? (c :: t) with
      | none => none
      | some (cs, ⟨u, hu⟩) =>
        (readLong? quote (cs.reverse ++ acc) u).map fun (v, ⟨r, hr⟩) =>
          (v, ⟨r, by omega⟩)
termination_by s.length
decreasing_by
  all_goals simp only [List.length_cons] at *
  all_goals omega

/-- Reads a string at the start of a text that begins with a quote; `long` allows three quotes. -/
def readQuoted? (long : Bool) (s : List Char) : Option (String × Shorter s) :=
  match s with
  | a :: b :: c :: t =>
    if (a = '\x22' ∨ a = '\x27') ∧ a = b ∧ b = c then
      if long then
        (readLong? a [] (withoutBreak t)).map fun (v, ⟨r, hr⟩) => (v, ⟨r, by
          have := length_withoutBreak_le t
          simp only [List.length_cons]
          omega⟩)
      else none
    else if a = '\x22' then
      (readBasic? [] (b :: c :: t)).map fun (v, ⟨r, hr⟩) => (v, ⟨r, Text.length_lt_cons_of_lt hr⟩)
    else if a = '\x27' then
      (readLiteral? (b :: c :: t)).map fun (v, ⟨r, hr⟩) => (v, ⟨r, Text.length_lt_cons_of_lt hr⟩)
    else none
  | [a, b] => if (a = '\x22' ∨ a = '\x27') ∧ a = b then some ("", ⟨[], by simp⟩) else none
  | _ => none

end PartPatch.Toml
