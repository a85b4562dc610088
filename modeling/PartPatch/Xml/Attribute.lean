import PartPatch.Xml.Escape
import PartPatch.Xml.Event

/-!
# Attributes of a tag

Pairs of a name and a quoted value. Blanks are allowed around the equals sign and not required
between pairs.
-/

namespace PartPatch.Xml

set_option autoImplicit false

/-- An attribute as it is written: its name, and its value without quotes. -/
structure RawAttribute where
  name : List Char
  value : List Char
deriving DecidableEq, Repr

def skipSpace (s : List Char) : List Char :=
  s.dropWhile isSpace

theorem length_skipSpace_le (s : List Char) : (skipSpace s).length ≤ s.length :=
  Text.length_dropWhile_le _ s

theorem length_lt_of_skipSpace {c : Char} {s r : List Char} (h : skipSpace s = c :: r) :
    r.length < s.length := by
  have := length_skipSpace_le s
  rw [h] at this
  exact this

/-- Reads the quoted value after an equals sign. -/
def readValue (s : List Char) : Except Malformation (List Char × Shorter s) :=
  match h : skipSpace s with
  | [] => .error .missingValue
  | quote :: t =>
    if quote = '\x27' ∨ quote = '\x22' then
      match cutMark? [quote] t (List.cons_ne_nil _ _) with
      | none => .error .unclosedValue
      | some (value, ⟨r, hr⟩) => .ok (value, ⟨r, Text.length_lt_trans hr (length_lt_of_skipSpace h)⟩)
    else .error .missingValue

def inAttributeName (c : Char) : Bool :=
  c != '=' && !isSpace c

/-- Reads the next attribute, if there is anything but blanks left. -/
def readAttribute (s : List Char) :
    Except Malformation (Option (RawAttribute × Shorter s)) :=
  match h : skipSpace s with
  | [] => .ok none
  | c :: t =>
    match h' : skipSpace (t.dropWhile inAttributeName) with
    | '=' :: u =>
      match readValue u with
      | .error cause => .error cause
      | .ok (value, ⟨r, hr⟩) =>
        .ok (some (⟨c :: t.takeWhile inAttributeName, value⟩, ⟨r, by
          have h₁ := length_skipSpace_le s
          have h₂ := length_skipSpace_le (t.dropWhile inAttributeName)
          have h₃ := Text.length_dropWhile_le inAttributeName t
          simp only [h, h', List.length_cons] at h₁ h₂
          omega⟩))
    | _ => .error .missingEquals

/-- Reads all attributes up to the end of the tag. -/
def readAttributes (s : List Char) : Except Malformation (List RawAttribute) :=
  match readAttribute s with
  | .error cause => .error cause
  | .ok none => .ok []
  | .ok (some (a, ⟨r, _⟩)) =>
    match readAttributes r with
    | .error cause => .error cause
    | .ok rest => .ok (a :: rest)
termination_by s.length

/-- Reads attributes until one has the name; those behind it are not looked at. -/
def findAttribute (name s : List Char) : Except Malformation (Option (List Char)) :=
  match readAttribute s with
  | .error cause => .error cause
  | .ok none => .ok none
  | .ok (some (a, ⟨r, _⟩)) => if a.name = name then .ok (some a.value) else findAttribute name r
termination_by s.length

/-- The attributes of a tag with their references resolved. No name may occur twice. -/
def tagAttributes (inside : List Char) : Except Malformation (List (String × String)) :=
  match readAttributes (inside.dropWhile fun c => !isSpace c) with
  | .error cause => .error cause
  | .ok attributes =>
    if (attributes.map RawAttribute.name).Nodup then
      attributes.mapM fun a => match unescape? a.value with
        | some value => .ok (String.ofList a.name, String.ofList value)
        | none => .error .badReference
    else .error .repeatedAttribute

end PartPatch.Xml
