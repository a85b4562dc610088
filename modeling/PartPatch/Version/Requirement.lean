import PartPatch.Version.Reader

/-!
# Requirements on versions

A requirement is a list of comparators, all of which a version has to satisfy; a lone wildcard is
the empty list. A pre-release satisfies a requirement only if one of the comparators names a
pre-release with the same three numbers.
-/

namespace PartPatch.Version

set_option autoImplicit false

inductive Operator where
  | exact
  | greater
  | greaterOrEqual
  | less
  | lessOrEqual
  | tilde
  | caret
  | wildcard
deriving DecidableEq, Repr

structure Comparator where
  operator : Operator
  major : Nat
  minor : Option Nat
  patch : Option Nat
  prerelease : List Label
deriving DecidableEq, Repr

structure Requirement where
  comparators : List Comparator
deriving DecidableEq, Repr

namespace Comparator

/-- The version's place relative to the numbers of the comparator, or `none` if it agrees with all
of them but the comparator leaves some out. -/
def relation (c : Comparator) (v : Version) : Option Ordering :=
  match compare v.major c.major with
  | .eq =>
    match c.minor with
    | none => none
    | some minor =>
      match compare v.minor minor with
      | .eq =>
        match c.patch with
        | none => none
        | some patch =>
          match compare v.patch patch with
          | .eq => some (comparePrerelease v.prerelease c.prerelease)
          | o => some o
      | o => some o
  | o => some o

/-- Whether the version's numbers agree with all those that the comparator gives. -/
def agrees (c : Comparator) (v : Version) : Bool :=
  v.major == c.major && c.minor.all (· == v.minor) && c.patch.all (· == v.patch)

def admitsExactly (c : Comparator) (v : Version) : Bool :=
  c.agrees v && v.prerelease == c.prerelease

/-- The version is not before the comparator and differs from it at most in the last number that
it gives. -/
def admitsTilde (c : Comparator) (v : Version) : Bool :=
  v.major == c.major && c.minor.all (· == v.minor) &&
    match c.patch with
    | some patch =>
      decide (patch < v.patch) ||
        (v.patch == patch && (comparePrerelease v.prerelease c.prerelease).isGE)
    | none => (comparePrerelease v.prerelease c.prerelease).isGE

/-- The version is not before the comparator and has the same leading numbers, up to the first
that is not zero. -/
def admitsCaret (c : Comparator) (v : Version) : Bool :=
  v.major == c.major &&
    match c.minor, c.patch with
    | none, _ => true
    | some minor, none => if 0 < c.major then decide (minor ≤ v.minor) else v.minor == minor
    | some minor, some patch =>
      let notBefore := (comparePrerelease v.prerelease c.prerelease).isGE
      let patchNotBefore := decide (patch < v.patch) || (v.patch == patch && notBefore)
      if 0 < c.major then decide (minor < v.minor) || (v.minor == minor && patchNotBefore)
      else if 0 < minor then v.minor == minor && patchNotBefore
      else v.minor == minor && v.patch == patch && notBefore

def admits (c : Comparator) (v : Version) : Bool :=
  match c.operator with
  | .exact | .wildcard => c.admitsExactly v
  | .greater => c.relation v == some .gt
  | .greaterOrEqual => c.admitsExactly v || c.relation v == some .gt
  | .less => c.relation v == some .lt
  | .lessOrEqual => c.admitsExactly v || c.relation v == some .lt
  | .tilde => c.admitsTilde v
  | .caret => c.admitsCaret v

/-- Whether the comparator names a pre-release of the version's own numbers. -/
def namesPrereleaseOf (c : Comparator) (v : Version) : Bool :=
  c.major == v.major && c.minor == some v.minor && c.patch == some v.patch && c.prerelease != []

end Comparator

namespace Requirement

def admits (r : Requirement) (v : Version) : Bool :=
  r.comparators.all (·.admits v) &&
    (v.prerelease == [] || r.comparators.any (·.namesPrereleaseOf v))

def skipSpaces (s : List Char) : List Char :=
  s.dropWhile (· == ' ')

def isWildcard (c : Char) : Bool :=
  c == '*' || c == 'x' || c == 'X'

/-- Reads an operator, if one stands here. -/
def readOperator? : List Char → Option Operator × List Char
  | '=' :: s => (some .exact, s)
  | '>' :: '=' :: s => (some .greaterOrEqual, s)
  | '>' :: s => (some .greater, s)
  | '<' :: '=' :: s => (some .lessOrEqual, s)
  | '<' :: s => (some .less, s)
  | '~' :: s => (some .tilde, s)
  | '^' :: s => (some .caret, s)
  | s => (none, s)

/-- A further number of a comparator. -/
inductive Field where
  | absent
  | wildcard
  | number (n : Nat)
deriving DecidableEq, Repr

def Field.number? : Field → Option Nat
  | .number n => some n
  | _ => none

/-- Reads a further number, which after a wildcard can only be another wildcard. Gives the place
reached, too. -/
def readField (place before : Place) (afterWildcard : Bool) :
    List Char → Except Error (Field × Place × List Char)
  | '.' :: s =>
    match s with
    | c :: t =>
      if isWildcard c then .ok (.wildcard, place, t)
      else if afterWildcard then .error .afterWildcard
      else (readNumber place s).map fun (n, r) => (.number n, place, r)
    | [] =>
      if afterWildcard then .error .afterWildcard else .error (.endOfText place)
  | s => .ok (.absent, before, s)

/-- Reads the labels after `mark` where all three numbers precede it. -/
def readSuffixAfter (patch : Field) (mark : Char) (place before : Place) (s : List Char) :
    Except Error (List Label × Place × List Char) :=
  match patch with
  | .number _ => readSuffix mark place before s
  | _ => .ok ([], before, s)

/-- Reads a comparator. Gives the last place reached, too. -/
def readComparator (s : List Char) : Except Error (Comparator × Place × List Char) := do
  let (operator, s) := readOperator? s
  let (major, s) ← readNumber .major (skipSpaces s)
  let (minor, place, s) ← readField .minor .major false s
  let (patch, place, s) ← readField .patch place (minor == .wildcard) s
  let (prerelease, place, s) ← readSuffixAfter patch '-' .prerelease place s
  let (_, place, s) ← readSuffixAfter patch '+' .build place s
  let operator := operator.getD
    (if minor = .wildcard ∨ patch = .wildcard then .wildcard else .caret)
  return (⟨operator, major, minor.number?, patch.number?, prerelease⟩, place, skipSpaces s)

/-- A wildcard that stands alone among other comparators has an error of its own. -/
def wildcardError (s : List Char) (e : Error) : Error :=
  match s with
  | c :: t =>
    if isWildcard c then
      match skipSpaces t with
      | [] | ',' :: _ => .wildcardAmongOthers c
      | _ => e
    else e
  | [] => e

/-- Reads at most `room` comparators, separated by commas, to the end of the text. -/
def readComparators : Nat → List Char → Except Error (List Comparator)
  | 0, _ => .error .tooManyComparators
  | room + 1, s =>
    match readComparator s with
    | .error e => .error (wildcardError s e)
    | .ok (comparator, _, []) => .ok [comparator]
    | .ok (comparator, _, ',' :: rest) =>
      (readComparators room (skipSpaces rest)).map (comparator :: ·)
    | .ok (_, place, c :: _) => .error (.expectedComma place c)

/-- The greatest number of comparators in a requirement. -/
def maxComparators : Nat := 32

def readList (s : List Char) : Except Error Requirement :=
  match skipSpaces s with
  | c :: t =>
    if isWildcard c then
      match skipSpaces t with
      | [] => .ok ⟨[]⟩
      | ',' :: _ => .error (.wildcardAmongOthers c)
      | _ => .error .afterWildcard
    else (readComparators maxComparators (c :: t)).map Requirement.mk
  | [] => (readComparators maxComparators []).map Requirement.mk

def read (text : String) : Except Error Requirement :=
  readList text.toList

end Requirement

/-- Why a version cannot be checked against a requirement; both as they were given. -/
inductive CheckError where
  | version (text : String) (cause : Error)
  | requirement (text : String) (cause : Error)
deriving DecidableEq, Repr

def CheckError.message : CheckError → String
  | .version text cause => "invalid registry version '" ++ text ++ "': " ++ cause.message
  | .requirement text cause =>
    "invalid registry version requirement '" ++ text ++ "': " ++ cause.message

/-- Whether a version satisfies a requirement, both given as texts. No requirement, or a blank one,
is satisfied by anything; any other is not satisfied where there is no version. -/
def satisfies (version requirement : Option String) : Except CheckError Bool :=
  match requirement.map Text.trimmed with
  | none => .ok true
  | some required =>
    if required = "" then .ok true
    else match Requirement.read required with
      | .error e => .error (.requirement required e)
      | .ok r =>
        match version with
        | none => .ok false
        | some text =>
          match read (Text.trimmed text) with
          | .error e => .error (.version text e)
          | .ok v => .ok (r.admits v)

end PartPatch.Version
