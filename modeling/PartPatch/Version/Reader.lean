import PartPatch.Text.Number
import PartPatch.Text.Quoted
import PartPatch.Version.Basic

/-!
# Reading a version

Numbers are decimal, without leading zeros, and fit in 64 bits. A pre-release follows a hyphen,
build metadata, which plays no part in comparisons, a plus sign.
-/

namespace PartPatch.Version

set_option autoImplicit false

/-- Why a text is not a version, or not a requirement on versions. -/
inductive Error where
  | empty
  | endOfText (place : Place)
  | unexpected (place : Place) (found : Char)
  | unexpectedAfter (place : Place) (found : Char)
  | expectedComma (place : Place) (found : Char)
  | leadingZero (place : Place)
  | tooLarge (place : Place)
  | emptySegment (place : Place)
  | wildcardAmongOthers (wildcard : Char)
  | afterWildcard
  | tooManyComparators
deriving DecidableEq, Repr

def Error.message : Error → String
  | .empty => "empty string, expected a semver version"
  | .endOfText place => "unexpected end of input while parsing " ++ place.text
  | .unexpected place c =>
    "unexpected character " ++ Text.quoted c ++ " while parsing " ++ place.text
  | .unexpectedAfter place c => "unexpected character " ++ Text.quoted c ++ " after " ++ place.text
  | .expectedComma place c =>
    "expected comma after " ++ place.text ++ ", found " ++ Text.quoted c
  | .leadingZero place => "invalid leading zero in " ++ place.text
  | .tooLarge place => "value of " ++ place.text ++ " exceeds u64::MAX"
  | .emptySegment place => "empty identifier segment in " ++ place.text
  | .wildcardAmongOthers c =>
    "wildcard req (" ++ c.toString ++ ") must be the only comparator in the version req"
  | .afterWildcard => "unexpected character after wildcard in version req"
  | .tooManyComparators => "excessive number of version comparators"

def readNumber (place : Place) (s : List Char) : Except Error (Nat × List Char) :=
  let digits := s.takeWhile Char.isDigit
  let rest := s.dropWhile Char.isDigit
  match digits, rest with
  | [], [] => .error (.endOfText place)
  | [], c :: _ => .error (.unexpected place c)
  | '0' :: _ :: _, _ => .error (.leadingZero place)
  | digits, rest =>
    let value := Text.decimalValue digits
    if Text.maxNumber < value then .error (.tooLarge place) else .ok (value, rest)

/-- Skips the full stop after the number at `place`. -/
def readDot (place : Place) : List Char → Except Error (List Char)
  | '.' :: s => .ok s
  | [] => .error (.endOfText place)
  | c :: _ => .error (.unexpectedAfter place c)

/-- The characters of pre-releases and build metadata. -/
def isLabelChar (c : Char) : Bool :=
  c.isAlphanum || c == '-'

/-- Reads one label; only in build metadata may a number begin with a superfluous zero. -/
def readLabel (place : Place) (s : List Char) : Except Error Label :=
  if s = [] then .error (.emptySegment place)
  else if s.all Char.isDigit then
    if place = .prerelease ∧ 1 < s.length ∧ s.head? = some '0' then .error (.leadingZero place)
    else .ok (.number (Text.decimalValue s))
  else .ok (.word (String.ofList s))

/-- Reads labels separated by full stops, one at least. -/
def readLabels (place : Place) (s : List Char) : Except Error (List Label × List Char) :=
  let (labels, rest) := Text.run (fun c => isLabelChar c || c == '.') s
  match (Text.split '.' labels).mapM (readLabel place) with
  | .ok labels => .ok (labels, rest)
  | .error e => .error e

/-- Reads the labels after `mark`, if it stands here; `before` is the place that precedes it. -/
def readSuffix (mark : Char) (place before : Place) :
    List Char → Except Error (List Label × Place × List Char)
  | [] => .ok ([], before, [])
  | c :: s =>
    if c = mark then
      match readLabels place s with
      | .ok (labels, rest) => .ok (labels, place, rest)
      | .error e => .error e
    else .ok ([], before, c :: s)

def readList (s : List Char) : Except Error Version := do
  if s = [] then throw .empty
  let (major, s) ← readNumber .major s
  let s ← readDot .major s
  let (minor, s) ← readNumber .minor s
  let s ← readDot .minor s
  let (patch, s) ← readNumber .patch s
  let (prerelease, place, s) ← readSuffix '-' .prerelease .patch s
  let (_, place, s) ← readSuffix '+' .build place s
  match s with
  | [] => return ⟨major, minor, patch, prerelease⟩
  | c :: _ => throw (.unexpectedAfter place c)

def read (text : String) : Except Error Version :=
  readList text.toList

end PartPatch.Version
