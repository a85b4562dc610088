import PartPatch.Text.Basic
import PartPatch.Symbol
import PartPatch.Token.Piece

/-!
# Template texts

Attribute values and texts of fragments. Beside literal text they hold tokens, written `{{name}}`,
and identifiers, written `#{namespace:label}`. An opening mark of a token that is never closed is
literal; so is a hash in front of a token.
-/

namespace PartPatch

set_option autoImplicit false

inductive Segment where
  | literal (text : String)
  | token (name : String)
  | identifier (namespaceName label : String)
deriving DecidableEq, Repr

structure TemplateText where
  segments : List Segment
deriving DecidableEq, Repr

namespace TemplateText

inductive Fault where
  | emptyToken
  | unterminatedIdentifier
  | missingColon
  | invalidName
deriving DecidableEq, Repr

structure Error where
  input : String
  fault : Fault
deriving DecidableEq, Repr

def Fault.text : Fault → String
  | .emptyToken => "empty token placeholder"
  | .unterminatedIdentifier => "unterminated identifier placeholder"
  | .missingColon => "identifier placeholder must be '#\x7bnamespace:label\x7d'"
  | .invalidName => "identifier namespace and label must be plain names"

def Error.message (e : Error) : String :=
  "malformed placeholder in '" ++ e.input ++ "': " ++ e.fault.text

/-- Reads an identifier after its opening mark. -/
def readIdentifier (s : List Char) :
    Except Fault (Segment × { r : List Char // r.length < s.length }) :=
  match h : Text.cut? ['\x7d'] s with
  | none => .error .unterminatedIdentifier
  | some (inner, rest) =>
    match Text.cut? [':'] inner with
    | none => .error .missingColon
    | some (space, label) =>
      let space := String.ofList space
      let label := String.ofList label
      if Symbol.isKey space && Symbol.isKey label then
        .ok (.identifier space label, ⟨rest, by
          have := Text.length_of_cut? h
          simp only [List.length_cons, List.length_nil] at this
          omega⟩)
      else .error .invalidName

/-- Reads a token after its opening mark, if the mark is ever closed. -/
def readToken? (s : List Char) :
    Option (Except Fault (Segment × { r : List Char // r.length < s.length })) :=
  match h : Text.cut? Token.closeMark s with
  | none => none
  | some (inner, rest) =>
    match Text.trim inner with
    | [] => some (.error .emptyToken)
    | name => some (.ok (.token (String.ofList name), ⟨rest, by
        have := Text.length_of_cut? h
        simp only [Token.closeMark, List.length_cons, List.length_nil] at this
        omega⟩))

/-- The placeholder that begins here, if one does. -/
def readPlaceholder? (s : List Char) :
    Option (Except Fault (Segment × { r : List Char // r.length < s.length })) :=
  match s with
  | '\x7b' :: '\x7b' :: t =>
    (readToken? t).map fun result => result.map fun (segment, ⟨r, hr⟩) =>
      (segment, ⟨r, by simp only [List.length_cons]; omega⟩)
  | '#' :: '\x7b' :: '\x7b' :: _ => none
  | '#' :: '\x7b' :: t =>
    some ((readIdentifier t).map fun (segment, ⟨r, hr⟩) =>
      (segment, ⟨r, by simp only [List.length_cons]; omega⟩))
  | _ => none

/-- The pending literal, given with its last character first. -/
def literalSegment (pending : List Char) : List Segment :=
  if pending = [] then [] else [.literal (String.ofList pending.reverse)]

/-- Reads segments; `pending` holds the literal characters since the last placeholder, last
first. -/
def readSegments (pending : List Char) (s : List Char) : Except Fault (List Segment) :=
  match s with
  | [] => .ok (literalSegment pending)
  | c :: t =>
    match readPlaceholder? (c :: t) with
    | some (.error fault) => .error fault
    | some (.ok (segment, ⟨r, _⟩)) =>
      match readSegments [] r with
      | .error fault => .error fault
      | .ok segments => .ok (literalSegment pending ++ segment :: segments)
    | none => readSegments (c :: pending) t
termination_by s.length
decreasing_by
  all_goals
    simp only [List.length_cons] at *
    omega

def read (input : String) : Except Error TemplateText :=
  match readSegments [] input.toList with
  | .ok segments => .ok ⟨segments⟩
  | .error fault => .error ⟨input, fault⟩

/-- The identifiers of the text with repetitions, each with its namespace and label. -/
def identifiers (t : TemplateText) : List (String × String) :=
  t.segments.filterMap fun
    | .identifier space label => some (space, label)
    | _ => none

def tokens (t : TemplateText) : List String :=
  t.segments.filterMap fun
    | .token name => some name
    | _ => none

end TemplateText

end PartPatch
