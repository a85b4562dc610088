import PartPatch.Toml.Assembly
import PartPatch.Toml.Quoted
import PartPatch.Toml.Scalar

/-!
# Reading TOML

A document is read statement by statement and then put together. Arrays and tables in braces may
span lines, hold comments and end in a comma.
-/

namespace PartPatch.Toml

set_option autoImplicit false

abbrev NotLonger (s : List Char) := { r : List Char // r.length ≤ s.length }

def skipSpace (s : List Char) : List Char :=
  s.dropWhile isSpace

theorem length_skipSpace_le (s : List Char) : (skipSpace s).length ≤ s.length :=
  Text.length_dropWhile_le _ s

/-- The text without a comment at its start. -/
def skipComment (s : List Char) : List Char :=
  match s with
  | '#' :: t => t.dropWhile isAllowed
  | s => s

theorem length_skipComment_le (s : List Char) : (skipComment s).length ≤ s.length := by
  unfold skipComment
  split
  · exact Nat.le_succ_of_le (Text.length_dropWhile_le _ _)
  · exact Nat.le_refl _

/-- What follows the rest of a line, which may hold blanks and a comment only. -/
def endOfLine? (s : List Char) : Option (NotLonger s) :=
  match h : skipComment (skipSpace s) with
  | [] => some ⟨[], Nat.zero_le _⟩
  | c :: t =>
    match lineBreak? (c :: t) with
    | none => none
    | some (_, ⟨r, hr⟩) => some ⟨r, by
        have h₁ := length_skipComment_le (skipSpace s)
        have h₂ := length_skipSpace_le s
        rw [h] at h₁
        omega⟩

/-- Skips blanks, line breaks and comments. -/
def skipFiller (s : List Char) : List Char :=
  match h : lineBreak? (skipComment (skipSpace s)) with
  | none => skipComment (skipSpace s)
  | some (_, ⟨r, hr⟩) =>
    have : r.length < s.length := by
      have h₁ := length_skipComment_le (skipSpace s)
      have h₂ := length_skipSpace_le s
      omega
    skipFiller r
termination_by s.length

theorem length_skipFiller_le (s : List Char) : (skipFiller s).length ≤ s.length := by
  fun_induction skipFiller s with
  | case1 s _ =>
    exact Nat.le_trans (length_skipComment_le _) (length_skipSpace_le s)
  | case2 s _ r hr _ hlt ih =>
    exact Nat.le_trans ih (Nat.le_of_lt hlt)

theorem length_lt_of_skipFiller {c : Char} {s r : List Char} (h : skipFiller s = c :: r) :
    r.length < s.length := by
  have := length_skipFiller_le s
  rw [h] at this
  exact this

def isBareKeyChar (c : Char) : Bool :=
  c.isAlphanum || c == '_' || c == '-'

/-- Reads one part of a key. -/
def readKeyPart? (s : List Char) : Option (String × Shorter s) :=
  match s with
  | [] => none
  | c :: t =>
    if isBareKeyChar c then
      some (String.ofList (c :: t.takeWhile isBareKeyChar),
        ⟨t.dropWhile isBareKeyChar, Nat.lt_succ_of_le (Text.length_dropWhile_le _ t)⟩)
    else readQuoted? false (c :: t)

/-- Reads parts joined by full stops, with blanks between them. -/
def readKeyParts? (s : List Char) : Option (List String × Shorter s) :=
  match readKeyPart? s with
  | none => none
  | some (part, ⟨r, hr⟩) =>
    match h : skipSpace r with
    | '.' :: t =>
      have hlt : (skipSpace t).length < s.length := by
        have h₁ := length_skipSpace_le r
        have h₂ := length_skipSpace_le t
        simp only [h, List.length_cons] at h₁
        omega
      (readKeyParts? (skipSpace t)).map fun (parts, ⟨u, hu⟩) =>
        (part :: parts, ⟨u, Nat.lt_trans hu hlt⟩)
    | _ => some ([part], ⟨r, hr⟩)
termination_by s.length

/-- How many parts a key may have, and how many arrays and tables in braces may stand inside one
another. -/
def maxDepth : Nat := 80

def readKey? (s : List Char) : Option (List String × Shorter s) :=
  (readKeyParts? s).filter fun (parts, _) => parts.length ≤ maxDepth

def isScalarChar (c : Char) : Bool :=
  c.isAlphanum || c == '_' || c == '-' || c == '+' || c == '.' || c == ':'

/-- Reads an unquoted value. A date and a time may be parted by a blank. -/
def readScalar? (s : List Char) : Option (Value × Shorter s) :=
  let first := s.takeWhile isScalarChar
  let joined : List Char := match s.dropWhile isScalarChar with
    | ' ' :: c :: t =>
      if c.isDigit ∧ (readDate? first).any (fun d => d.2.isEmpty) then
        first ++ ' ' :: c :: t.takeWhile isScalarChar
      else first
    | _ => first
  if h : 0 < joined.length ∧ joined.length ≤ s.length then
    (scalar? joined).map fun v => (v, ⟨s.drop joined.length, by
      simp only [List.length_drop]; omega⟩)
  else none

/-- Reads the key of an assignment and its equals sign. -/
def readTarget? (s : List Char) : Option (List String × Shorter s) :=
  match readKey? s with
  | none => none
  | some (path, ⟨r, hr⟩) =>
    match h : skipSpace r with
    | '=' :: t => some (path, ⟨skipSpace t, by
        have h₁ := length_skipSpace_le r
        have h₂ := length_skipSpace_le t
        simp only [h, List.length_cons] at h₁
        omega⟩)
    | _ => none

mutual

/-- Reads a value that may hold `depth` levels of arrays and tables. -/
def readValue? (depth : Nat) (s : List Char) : Option (Value × Shorter s) :=
  match s with
  | '[' :: t =>
    match depth with
    | 0 => none
    | depth + 1 =>
      (readItems? depth t).map fun (items, ⟨r, hr⟩) =>
        (.array items, ⟨r, Text.length_lt_cons_of_lt hr⟩)
  | '\x7b' :: t =>
    match depth with
    | 0 => none
    | depth + 1 =>
      match readPairs? depth t with
      | none => none
      | some (pairs, ⟨r, hr⟩) =>
        (assembleInline pairs).map fun entries =>
          (.table entries, ⟨r, Text.length_lt_cons_of_lt hr⟩)
  | '\x22' :: t => (readQuoted? true ('\x22' :: t)).map fun (v, r) => (.string v, r)
  | '\x27' :: t => (readQuoted? true ('\x27' :: t)).map fun (v, r) => (.string v, r)
  | s => readScalar? s
termination_by (s.length, 0)

/-- Reads items up to the closing bracket of an array. -/
def readItems? (depth : Nat) (s : List Char) : Option (List Value × Shorter s) :=
  match hs : skipFiller s with
  | ']' :: r => some ([], ⟨r, length_lt_of_skipFiller hs⟩)
  | u =>
    have hu : u.length ≤ s.length := hs ▸ length_skipFiller_le s
    match readValue? depth u with
    | none => none
    | some (item, ⟨r, hr⟩) =>
      match hr' : skipFiller r with
      | ']' :: t =>
        some ([item],
          ⟨t, Nat.lt_trans (length_lt_of_skipFiller hr') (Nat.lt_of_lt_of_le hr hu)⟩)
      | ',' :: t =>
        have hlt : t.length < s.length :=
          Nat.lt_trans (length_lt_of_skipFiller hr') (Nat.lt_of_lt_of_le hr hu)
        (readItems? depth t).map fun (items, ⟨r', hr'⟩) =>
          (item :: items, ⟨r', Text.length_lt_trans hr' hlt⟩)
      | _ => none
termination_by (s.length, 1)
decreasing_by
  · rcases Nat.lt_or_eq_of_le hu with h | h
    · exact Prod.Lex.left _ _ h
    · rw [h]; exact Prod.Lex.right _ (by decide)
  · exact Prod.Lex.left _ _ hlt

/-- Reads assignments up to the closing brace of a table. -/
def readPairs? (depth : Nat) (s : List Char) : Option (List (List String × Value) × Shorter s) :=
  match hs : skipFiller s with
  | '\x7d' :: r => some ([], ⟨r, length_lt_of_skipFiller hs⟩)
  | u =>
    have hu : u.length ≤ s.length := hs ▸ length_skipFiller_le s
    match readTarget? u with
    | none => none
    | some (path, ⟨v, hv⟩) =>
      match readValue? depth v with
      | none => none
      | some (value, ⟨r, hr⟩) =>
        match hr' : skipFiller r with
        | '\x7d' :: t =>
          some ([(path, value)], ⟨t, Nat.lt_trans (length_lt_of_skipFiller hr')
            (Nat.lt_of_lt_of_le (Nat.lt_trans hr hv) hu)⟩)
        | ',' :: t =>
          have hlt : t.length < s.length :=
            Nat.lt_trans (length_lt_of_skipFiller hr')
              (Nat.lt_of_lt_of_le (Nat.lt_trans hr hv) hu)
          (readPairs? depth t).map fun (pairs, ⟨r', hr'⟩) =>
            ((path, value) :: pairs, ⟨r', Text.length_lt_trans hr' hlt⟩)
        | _ => none
termination_by (s.length, 1)
decreasing_by
  · exact Prod.Lex.left _ _ (Nat.lt_of_lt_of_le hv hu)
  · exact Prod.Lex.left _ _ hlt

end

/-- Reads the key between the brackets of a header, and the brackets that close it. -/
def readHeaderKey? (close : List Char) (s : List Char) : Option (List String × NotLonger s) :=
  match readKey? (skipSpace s) with
  | none => none
  | some (path, ⟨r, hr⟩) =>
    match h : Text.after? close (skipSpace r) with
    | none => none
    | some t => some (path, ⟨t, by
        have h₁ := length_skipSpace_le s
        have h₂ := length_skipSpace_le r
        have h₃ := Text.length_of_after? h
        omega⟩)

/-- Reads a statement at the start of a line. -/
def readStatement? (s : List Char) : Option (Statement × Shorter s) :=
  match s with
  | '[' :: '[' :: t =>
    (readHeaderKey? [']', ']'] t).map fun (path, ⟨r, hr⟩) =>
      (.openRow path, ⟨r, by simp only [List.length_cons]; omega⟩)
  | '[' :: t =>
    (readHeaderKey? [']'] t).map fun (path, ⟨r, hr⟩) =>
      (.openTable path, ⟨r, by simp only [List.length_cons]; omega⟩)
  | s =>
    match readTarget? s with
    | none => none
    | some (path, ⟨u, hu⟩) =>
      (readValue? maxDepth u).map fun (value, ⟨r, hr⟩) =>
        (.assign path value, ⟨r, Text.length_lt_trans hr hu⟩)

/-- Reads all statements; each ends its line. -/
def readStatements? (s : List Char) : Option (List Statement) :=
  match hs : skipFiller s with
  | [] => some []
  | c :: t =>
    match readStatement? (c :: t) with
    | none => none
    | some (statement, ⟨u, hu⟩) =>
      match endOfLine? u with
      | none => none
      | some ⟨r, hr⟩ =>
        have : r.length < s.length := by
          have := length_skipFiller_le s
          rw [hs] at this
          omega
        (readStatements? r).map (statement :: ·)
termination_by s.length

/-- The entries of a document; a byte order mark at its start is no part of it. -/
def read? (source : String) : Option (List (String × Value)) :=
  let s := match source.toList with
    | '\uFEFF' :: s => s
    | s => s
  (readStatements? s).bind assemble

end PartPatch.Toml
