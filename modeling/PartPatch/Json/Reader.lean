import PartPatch.Text.Number
import PartPatch.Json.Basic
import PartPatch.Json.Number

/-!
# Reading JSON

One value with blanks around it. Strings may not hold bare control characters or lone surrogates;
at most 127 arrays and objects stand inside one another.
-/

namespace PartPatch.Json

set_option autoImplicit false

def isSpace (c : Char) : Bool :=
  c == ' ' || c == '\n' || c == '\t' || c == '\r'

def skipSpace (s : List Char) : List Char :=
  s.dropWhile isSpace

theorem length_skipSpace_le (s : List Char) : (skipSpace s).length ≤ s.length :=
  Text.length_dropWhile_le _ s

/-- The value of four hexadecimal digits. -/
def hex4? (a b c d : Char) : Option Nat :=
  Text.hexadecimalValue? [a, b, c, d]

/-- The character that an escape of one letter stands for. -/
def escaped? (c : Char) : Option Char :=
  if c = '\x22' ∨ c = '\\' ∨ c = '/' then some c
  else if c = 'b' then some '\x08'
  else if c = 'f' then some '\x0c'
  else if c = 'n' then some '\n'
  else if c = 'r' then some '\r'
  else if c = 't' then some '\t'
  else none

/-- Reads a string after its opening quote; `acc` holds the characters so far, last first. -/
def readString? (acc : List Char) (s : List Char) :
    Option (String × { r : List Char // r.length < s.length }) :=
  match s with
  | [] => none
  | '\x22' :: t => some (String.ofList acc.reverse, ⟨t, Text.length_lt_cons _ _⟩)
  | '\\' :: 'u' :: a :: b :: c :: d :: t =>
    match hex4? a b c d with
    | none => none
    | some n =>
      if 0xD800 ≤ n ∧ n < 0xDC00 then
        match t with
        | '\\' :: 'u' :: a :: b :: c :: d :: t =>
          match hex4? a b c d with
          | none => none
          | some m =>
            if 0xDC00 ≤ m ∧ m < 0xE000 then
              let code := 0x10000 + (n - 0xD800) * 0x400 + (m - 0xDC00)
              (readString? (Char.ofNat code :: acc) t).map fun (v, ⟨r, hr⟩) =>
                (v, ⟨r, by simp only [List.length_cons]; omega⟩)
            else none
        | _ => none
      else if 0xDC00 ≤ n ∧ n < 0xE000 then none
      else (readString? (Char.ofNat n :: acc) t).map fun (v, ⟨r, hr⟩) =>
        (v, ⟨r, by simp only [List.length_cons]; omega⟩)
  | '\\' :: c :: t =>
    match escaped? c with
    | none => none
    | some x => (readString? (x :: acc) t).map fun (v, ⟨r, hr⟩) =>
        (v, ⟨r, by simp only [List.length_cons]; omega⟩)
  | c :: t =>
    if c.toNat < 0x20 ∨ c = '\\' then none
    else (readString? (c :: acc) t).map fun (v, ⟨r, hr⟩) =>
      (v, ⟨r, by simp only [List.length_cons]; omega⟩)
termination_by s.length

abbrev Shorter (s : List Char) := { r : List Char // r.length < s.length }

mutual

/-- Reads a value that may hold `depth` levels of arrays and objects. -/
def readValue? (depth : Nat) (s : List Char) : Option (Json × Shorter s) :=
  match s with
  | 'n' :: 'u' :: 'l' :: 'l' :: t => some (.null, ⟨t, by simp only [List.length_cons]; omega⟩)
  | 't' :: 'r' :: 'u' :: 'e' :: t =>
    some (.bool true, ⟨t, by simp only [List.length_cons]; omega⟩)
  | 'f' :: 'a' :: 'l' :: 's' :: 'e' :: t =>
    some (.bool false, ⟨t, by simp only [List.length_cons]; omega⟩)
  | '\x22' :: t =>
    (readString? [] t).map fun (v, ⟨r, hr⟩) => (.string v, ⟨r, Text.length_lt_cons_of_lt hr⟩)
  | '[' :: t =>
    match depth with
    | 0 => none
    | depth + 1 =>
      match hu : skipSpace t with
      | ']' :: u => some (.array [], ⟨u, by
          have := length_skipSpace_le t
          simp only [hu, List.length_cons] at this ⊢
          omega⟩)
      | u =>
        (readItems? depth u).map fun (items, ⟨r, hr⟩) => (.array items, ⟨r, by
          have := length_skipSpace_le t
          simp only [hu, List.length_cons] at this ⊢
          omega⟩)
  | '\x7b' :: t =>
    match depth with
    | 0 => none
    | depth + 1 =>
      match hu : skipSpace t with
      | '\x7d' :: u => some (.object [], ⟨u, by
          have := length_skipSpace_le t
          simp only [hu, List.length_cons] at this ⊢
          omega⟩)
      | u =>
        (readMembers? depth u).map fun (members, ⟨r, hr⟩) => (ofMembers members, ⟨r, by
          have := length_skipSpace_le t
          simp only [hu, List.length_cons] at this ⊢
          omega⟩)
  | s => readNumber? s
termination_by (s.length, 0)
decreasing_by
  all_goals
    have := length_skipSpace_le t
    simp only [hu] at this
    apply Prod.Lex.left
    simp only [List.length_cons]
    omega

/-- Reads the items of an array up to the closing bracket. -/
def readItems? (depth : Nat) (s : List Char) : Option (List Json × Shorter s) :=
  match readValue? depth s with
  | none => none
  | some (item, ⟨r, hr⟩) =>
    match ht : skipSpace r with
    | ']' :: t => some ([item], ⟨t, by
        have := length_skipSpace_le r
        simp only [ht, List.length_cons] at this
        omega⟩)
    | ',' :: t =>
      have hlt : (skipSpace t).length < s.length := by
        have := length_skipSpace_le r
        have := length_skipSpace_le t
        simp only [ht, List.length_cons] at *
        omega
      (readItems? depth (skipSpace t)).map fun (items, ⟨r', hr'⟩) =>
        (item :: items, ⟨r', Nat.lt_trans hr' hlt⟩)
    | _ => none
termination_by (s.length, 1)
decreasing_by
  · exact Prod.Lex.right _ (by decide)
  · exact Prod.Lex.left _ _ hlt

/-- Reads the members of an object up to the closing brace. -/
def readMembers? (depth : Nat) (s : List Char) : Option (List (String × Json) × Shorter s) :=
  match s with
  | '\x22' :: k =>
    match readString? [] k with
    | none => none
    | some (key, ⟨r₁, h₁⟩) =>
      match h₂ : skipSpace r₁ with
      | ':' :: r₂ =>
        have hlt₂ : (skipSpace r₂).length < ('\x22' :: k).length := by
          have := length_skipSpace_le r₁
          have := length_skipSpace_le r₂
          simp only [h₂, List.length_cons] at *
          omega
        match readValue? depth (skipSpace r₂) with
        | none => none
        | some (value, ⟨r₃, h₃⟩) =>
          match h₄ : skipSpace r₃ with
          | '\x7d' :: t => some ([(key, value)], ⟨t, by
              have := length_skipSpace_le r₃
              simp only [h₄, List.length_cons] at *
              omega⟩)
          | ',' :: t =>
            have hlt : (skipSpace t).length < ('\x22' :: k).length := by
              have := length_skipSpace_le r₃
              have := length_skipSpace_le t
              simp only [h₄, List.length_cons] at *
              omega
            (readMembers? depth (skipSpace t)).map fun (members, ⟨r', hr'⟩) =>
              ((key, value) :: members, ⟨r', Nat.lt_trans hr' hlt⟩)
          | _ => none
      | _ => none
  | _ => none
termination_by (s.length, 1)
decreasing_by
  · exact Prod.Lex.left _ _ hlt₂
  · exact Prod.Lex.left _ _ hlt

end

/-- How many arrays and objects may stand inside one another. -/
def maxDepth : Nat := 127

def read? (source : String) : Option Json :=
  match readValue? maxDepth (skipSpace source.toList) with
  | some (value, ⟨r, _⟩) => if skipSpace r = [] then some value else none
  | none => none

end PartPatch.Json
