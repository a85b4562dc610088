import PartPatch.Text.Number

/-!
# Character references

Writing replaces the characters that would read as markup by named entities. Reading resolves the
five predefined entities and numeric references; any other use of an ampersand is an error.
-/

namespace PartPatch.Xml

set_option autoImplicit false

/-- The form of a character in a text. -/
def escapeTextChar (c : Char) : List Char :=
  if c = '<' then ['&', 'l', 't', ';']
  else if c = '>' then ['&', 'g', 't', ';']
  else if c = '&' then ['&', 'a', 'm', 'p', ';']
  else [c]

/-- The form of a character in a quoted value. -/
def escapeValueChar (c : Char) : List Char :=
  if c = '\x27' then ['&', 'a', 'p', 'o', 's', ';']
  else if c = '\x22' then ['&', 'q', 'u', 'o', 't', ';']
  else escapeTextChar c

def escapeText (s : String) : String :=
  String.ofList (s.toList.flatMap escapeTextChar)

def escapeValue (s : String) : String :=
  String.ofList (s.toList.flatMap escapeValueChar)

/-- The character with this code, if it is neither zero nor a surrogate nor too large. -/
def scalar? (code : Nat) : Option Char :=
  if (0 < code ∧ code < 0xD800) ∨ (0xE000 ≤ code ∧ code < 0x110000) then some (Char.ofNat code)
  else none

def decimal? (digits : List Char) : Option Nat :=
  if digits ≠ [] ∧ digits.all Char.isDigit then some (Text.decimalValue digits) else none

def hexadecimal? (digits : List Char) : Option Nat :=
  if digits = [] then none else Text.hexadecimalValue? digits

/-- The character that the name between an ampersand and a semicolon stands for. -/
def entity? (name : List Char) : Option Char :=
  match name with
  | '#' :: 'x' :: digits => (hexadecimal? digits).bind scalar?
  | '#' :: digits => (decimal? digits).bind scalar?
  | ['l', 't'] => some '<'
  | ['g', 't'] => some '>'
  | ['a', 'm', 'p'] => some '&'
  | ['a', 'p', 'o', 's'] => some '\x27'
  | ['q', 'u', 'o', 't'] => some '\x22'
  | _ => none

/-- Whether the character may stand in the name of an entity. -/
def inEntityName (c : Char) : Bool :=
  c != '&' && c != ';'

/-- Resolves all references; `none` if an ampersand does not begin one. -/
def unescape? (s : List Char) : Option (List Char) :=
  match s with
  | [] => some []
  | '&' :: t =>
    match h : t.dropWhile inEntityName with
    | ';' :: rest =>
      have : rest.length < ('&' :: t).length := by
        have := Text.length_dropWhile_le inEntityName t
        simp only [h, List.length_cons] at this ⊢
        omega
      match entity? (t.takeWhile inEntityName) with
      | none => none
      | some c => (unescape? rest).map (c :: ·)
    | _ => none
  | c :: t => (unescape? t).map (c :: ·)
termination_by s.length
decreasing_by
  all_goals
    simp only [List.length_cons] at *
    omega

end PartPatch.Xml
