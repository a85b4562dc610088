import PartPatch.Text.Basic

/-!
# Markup events

A text is cut into tags, runs of character data, comments and other markup. Reading is lenient: a
name is whatever stands before a blank, comments may hold two hyphens, and processing instructions
and document types are recognised only to be passed over.
-/

namespace PartPatch.Xml

set_option autoImplicit false

/-- Why a text is not taken for markup. -/
inductive Malformation where
  | unclosedTag
  | unclosedComment
  | unclosedCharacterData
  | unclosedDocumentType
  | unclosedInstruction
  | unknownMarkup
  | missingDocumentTypeName
  | mismatchedEndTag
  | missingEquals
  | missingValue
  | unclosedValue
  | repeatedAttribute
  | badReference
  | missingVersion
  | unclosedElement
deriving DecidableEq, Repr

/-- One piece of markup. Tags and headers keep what stands inside them as it is written. -/
inductive Event where
  | header (inside : List Char)
  | startTag (inside : List Char)
  | emptyTag (inside : List Char)
  | endTag (name : List Char)
  | text (raw : List Char)
  | characterData (text : List Char)
  | comment (text : List Char)
  | skipped
deriving DecidableEq, Repr

def isSpace (c : Char) : Bool :=
  c == ' ' || c == '\r' || c == '\n' || c == '\t'

abbrev Shorter (s : List Char) := { r : List Char // r.length < s.length }

/-- Cuts a tag at the first closing bracket outside quotes; `quote` is the quote that is open. -/
def cutTag? (quote : Option Char) : (s : List Char) → Option (List Char × Shorter s)
  | [] => none
  | c :: s =>
    if quote = none ∧ c = '>' then some ([], ⟨s, Text.length_lt_cons _ _⟩)
    else
      let quote := match quote with
        | none => if c = '\x27' ∨ c = '\x22' then some c else none
        | some q => if c = q then none else some q
      (cutTag? quote s).map fun (inside, ⟨r, hr⟩) => (c :: inside, ⟨r, Text.length_lt_cons_of_lt hr⟩)

/-- Passes over a document type up to the bracket that closes it; `depth` brackets are open. -/
def cutDocumentType? (depth : Nat) : (s : List Char) → Option (List Char × Shorter s)
  | [] => none
  | c :: s =>
    if c = '>' ∧ depth = 0 then some ([], ⟨s, Text.length_lt_cons _ _⟩)
    else
      let depth := if c = '<' then depth + 1 else if c = '>' then depth - 1 else depth
      (cutDocumentType? depth s).map fun (inside, ⟨r, hr⟩) =>
        (c :: inside, ⟨r, Text.length_lt_cons_of_lt hr⟩)

theorem length_lt_of_cut? {mark s before rest : List Char} (hmark : mark ≠ [])
    (h : Text.cut? mark s = some (before, rest)) : rest.length < s.length := by
  have h₁ := Text.length_of_cut? h
  have h₂ := List.length_pos_iff.2 hmark
  omega

def cutMark? (mark s : List Char) (hmark : mark ≠ []) : Option (List Char × Shorter s) :=
  match h : Text.cut? mark s with
  | none => none
  | some (before, rest) => some (before, ⟨rest, length_lt_of_cut? hmark h⟩)

/-- The name at the start of a tag's inside. -/
def tagName (inside : List Char) : List Char :=
  inside.takeWhile fun c => !isSpace c

/-- The name in an end tag: blanks behind it do not count, unless there is nothing else. -/
def endTagName (inside : List Char) : List Char :=
  match (inside.reverse.dropWhile isSpace).reverse with
  | [] => inside
  | name => name

/-- What follows a start in upper case, which the text may write in either case. -/
def afterIgnoringCase? : List Char → List Char → Option (List Char)
  | [], s => some s
  | _ :: _, [] => none
  | a :: start, c :: s => if a = c.toUpper then afterIgnoringCase? start s else none

/-- Reads what follows `<!`. -/
def readDeclaration (s : List Char) : Except Malformation (Event × Shorter s) :=
  match s with
  | '-' :: '-' :: t =>
    match cutMark? ['-', '-', '>'] t (by decide) with
    | none => .error .unclosedComment
    | some (inside, ⟨r, hr⟩) =>
      .ok (.comment inside, ⟨r, by simp only [List.length_cons]; omega⟩)
  | '-' :: _ => .error .unclosedComment
  | '[' :: t =>
    match cutMark? [']', ']', '>'] ('[' :: t) (by decide) with
    | none => .error .unclosedCharacterData
    | some (inside, r) =>
      match Text.after? ['[', 'C', 'D', 'A', 'T', 'A', '['] inside with
      | none => .error .unclosedCharacterData
      | some text => .ok (.characterData text, r)
  | c :: t =>
    if c.toUpper = 'D' then
      match cutDocumentType? 0 (c :: t) with
      | none => .error .unclosedDocumentType
      | some (inside, r) =>
        match afterIgnoringCase? ['D', 'O', 'C', 'T', 'Y', 'P', 'E'] inside with
        | none => .error .unclosedDocumentType
        | some name =>
          if name.all isSpace then .error .missingDocumentTypeName else .ok (.skipped, r)
    else .error .unknownMarkup
  | [] => .error .unknownMarkup

/-- Whether a processing instruction is the header of the document. -/
def isHeader : List Char → Bool
  | ['x', 'm', 'l'] => true
  | 'x' :: 'm' :: 'l' :: c :: _ => isSpace c
  | _ => false

/-- Reads what follows `<`. -/
def readMarkup (s : List Char) : Except Malformation (Event × Shorter s) :=
  match s with
  | [] => .error .unclosedTag
  | '!' :: t =>
    (readDeclaration t).map fun (event, ⟨r, hr⟩) => (event, ⟨r, Text.length_lt_cons_of_lt hr⟩)
  | '?' :: t =>
    -- The mark that opens the instruction cannot be the one that closes it.
    match cutMark? ['?', '>'] ('?' :: t) (by decide) with
    | some (_ :: inside, r) =>
      .ok (if isHeader inside then .header (inside.drop 3) else .skipped, r)
    | _ => .error .unclosedInstruction
  | '/' :: t =>
    match cutTag? none t with
    | none => .error .unclosedTag
    | some (inside, ⟨r, hr⟩) => .ok (.endTag (endTagName inside), ⟨r, Text.length_lt_cons_of_lt hr⟩)
  | s =>
    match cutTag? none s with
    | none => .error .unclosedTag
    | some (inside, r) =>
      match inside.getLast? with
      | some '/' => .ok (.emptyTag inside.dropLast, r)
      | _ => .ok (.startTag inside, r)

def readText (c : Char) (s : List Char) : Event × Shorter (c :: s) :=
  (.text (c :: s.takeWhile (· != '<')),
    ⟨s.dropWhile (· != '<'), Nat.lt_succ_of_le (Text.length_dropWhile_le _ s)⟩)

/-- Reads the event at the start of a text that is not empty. -/
def readEvent (c : Char) (s : List Char) : Except Malformation (Event × Shorter (c :: s)) :=
  if c = '<' then
    (readMarkup s).map fun (event, ⟨r, hr⟩) => (event, ⟨r, Text.length_lt_cons_of_lt hr⟩)
  else .ok (readText c s)

end PartPatch.Xml
