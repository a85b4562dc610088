import PartPatch.Tree.Edit
import PartPatch.Xml.Attribute
import PartPatch.Xml.Scope

/-!
# Reading a document

Events are read one after the other and added to a tree, in which each new node becomes the last
child of the innermost open element. Text outside the root is dropped; comments and character data
there are kept. Prefixes are resolved when an element is opened.
-/

namespace PartPatch.Xml

set_option autoImplicit false

inductive Error where
  | malformed (position : Nat) (cause : Malformation)
  | undeclaredPrefix (qualifier name : String)
  | unexpectedClose (name : String)
  | missingRoot
  | tree (error : TreeError)
deriving DecidableEq, Repr

def Malformation.text : Malformation → String
  | .unclosedTag => "tag not closed"
  | .unclosedComment => "comment not closed"
  | .unclosedCharacterData => "CDATA not closed"
  | .unclosedDocumentType => "DOCTYPE not closed"
  | .unclosedInstruction => "processing instruction or XML declaration not closed"
  | .unknownMarkup => "unknown or missed symbol in markup"
  | .missingDocumentTypeName => "no document type name"
  | .mismatchedEndTag => "end tag does not match an open element"
  | .missingEquals => "attribute name without value"
  | .missingValue => "attribute value must be enclosed in quotes"
  | .unclosedValue => "attribute value not closed"
  | .repeatedAttribute => "duplicated attribute"
  | .badReference => "invalid character or entity reference"
  | .missingVersion => "XML declaration must start with a version"
  | .unclosedElement => "unclosed element at end of input"

def Error.message : Error → String
  | .malformed position cause =>
    "malformed XML at byte " ++ toString position ++ ": " ++ cause.text
  | .undeclaredPrefix qualifier name =>
    "undeclared namespace prefix '" ++ qualifier ++ "' on <" ++ name ++ ">"
  | .unexpectedClose name => "unexpected closing tag </" ++ name ++ ">"
  | .missingRoot => "document has no root element"
  | .tree error => error.message

/-- Why an event cannot be taken in, wherever it stands. -/
inductive Fault where
  | malformed (cause : Malformation)
  | undeclaredPrefix (qualifier name : String)
  | unexpectedClose (name : String)
  | tree (error : TreeError)
deriving DecidableEq, Repr

/-- The error that a fault at this position is. -/
def Fault.at (position : Nat) : Fault → Error
  | .malformed cause => .malformed position cause
  | .undeclaredPrefix qualifier name => .undeclaredPrefix qualifier name
  | .unexpectedClose name => .unexpectedClose name
  | .tree error => .tree error

/-- An element that is open: its node, and the declarations it brings into force. -/
structure Frame where
  id : NodeId
  declarations : List NamespaceDecl

/-- A tree under construction, with its open elements, innermost first. -/
structure Building where
  tree : Tree
  frames : List Frame

namespace Building

/-- The node that the next node goes below. -/
def current (b : Building) : NodeId :=
  match b.frames with
  | frame :: _ => frame.id
  | [] => Tree.documentId

def scope (b : Building) : Scope :=
  b.frames.map Frame.declarations

/-- Adds a node as the last child of the current one. -/
def add (b : Building) (kind : NodeKind) : Except Fault (Building × NodeId) :=
  let parent := b.current
  let ⟨tree, frames⟩ := b
  let (tree, id) := tree.push kind
  match tree.appendChild parent id with
  | .ok tree => .ok (⟨tree, frames⟩, id)
  | .error error => .error (.tree error)

end Building

/-- The declaration that an attribute of this name makes, if it makes one. -/
def declaration? (name value : String) : Option NamespaceDecl :=
  if name = "xmlns" then some ⟨none, value⟩
  else match Text.after? ['x', 'm', 'l', 'n', 's', ':'] name.toList with
    | some qualifier => some ⟨some (String.ofList qualifier), value⟩
    | none => none

/-- The namespace of an element's name; without a prefix there may be none, and an empty one is
none. -/
def elementNamespace (rawName : String) (qualifier : Option String) (scope : Scope) :
    Except Fault (Option String) :=
  match lookup? qualifier scope with
  | some uri => .ok (if uri = "" then none else some uri)
  | none =>
    match qualifier with
    | some q => .error (.undeclaredPrefix q rawName)
    | none => .ok none

/-- An attribute with its name resolved. Without a prefix it has no namespace. -/
def resolveAttribute (rawName : String) (scope : Scope) (name value : String) :
    Except Fault Attribute :=
  match splitName name.toList with
  | (none, localName) => .ok ⟨⟨none, localName, none⟩, value⟩
  | (some qualifier, localName) =>
    match lookup? (some qualifier) scope with
    | some uri => .ok ⟨⟨some qualifier, localName, some uri⟩, value⟩
    | none => .error (.undeclaredPrefix qualifier rawName)

/-- The element that a tag opens in a scope. -/
def readElement (scope : Scope) (inside : List Char) : Except Fault Element :=
  match tagAttributes inside with
  | .error cause => .error (.malformed cause)
  | .ok pairs => do
    let rawName := String.ofList (tagName inside)
    let declarations := pairs.filterMap fun (name, value) => declaration? name value
    let scope := declarations :: scope
    let (qualifier, localName) := splitName (tagName inside)
    let namespaceUri ← elementNamespace rawName qualifier scope
    let attributes ← (pairs.filter fun (name, value) => (declaration? name value).isNone).mapM
      fun (name, value) => resolveAttribute rawName scope name value
    return ⟨⟨qualifier, localName, namespaceUri⟩, attributes, declarations⟩

/-- The header that a declaration holds: the version comes first. -/
def readHeader (inside : List Char) : Except Malformation Header :=
  match readAttribute inside with
  | .error cause => .error cause
  | .ok none => .error .missingVersion
  | .ok (some (first, _)) =>
    if first.name ≠ "version".toList then .error .missingVersion
    else do
      let encoding ← findAttribute "encoding".toList inside
      let standalone ← findAttribute "standalone".toList inside
      return ⟨String.ofList first.value, encoding.map String.ofList, standalone.map String.ofList⟩

/-- Checks that an end tag names the element opened last; the names of the open elements
afterwards. -/
def matchTags (opened : List (List Char)) : Event → Except Malformation (List (List Char))
  | .startTag inside => .ok (tagName inside :: opened)
  | .endTag name =>
    match opened with
    | [] => .error .mismatchedEndTag
    | top :: rest => if top = name then .ok rest else .error .mismatchedEndTag
  | _ => .ok opened

/-- What an event adds to the tree. -/
def Building.step (b : Building) : Event → Except Fault Building
  | .header inside =>
    match readHeader inside with
    | .error cause => .error (.malformed cause)
    | .ok header => .ok { b with tree := { b.tree with header := some header } }
  | .startTag inside => do
    let element ← readElement b.scope inside
    let (b, id) ← b.add (.element element)
    return { b with frames := ⟨id, element.declarations⟩ :: b.frames }
  | .emptyTag inside => do
    let element ← readElement b.scope inside
    return (← b.add (.element element)).1
  | .endTag name =>
    match b.frames with
    | [] => .error (.unexpectedClose (String.ofList name))
    | _ :: frames => .ok { b with frames }
  | .text raw =>
    match b.frames with
    | [] => .ok b
    | _ :: _ =>
      match unescape? raw with
      | none => .error (.malformed .badReference)
      | some text => (b.add (.text (String.ofList text))).map Prod.fst
  | .characterData text => (b.add (.text (String.ofList text))).map Prod.fst
  | .comment text => (b.add (.comment (String.ofList text))).map Prod.fst
  | .skipped => .ok b

/-- Takes in an event; the names of the open elements have to match its tags. -/
def take (opened : List (List Char)) (b : Building) (event : Event) :
    Except Fault (List (List Char) × Building) :=
  match matchTags opened event with
  | .error cause => .error (.malformed cause)
  | .ok opened => (b.step event).map fun b => (opened, b)

/-- Reads the events of `s`, the remainder of `whole`. -/
def build (whole : List Char) (opened : List (List Char)) (b : Building) (s : List Char) :
    Except Error Building :=
  match s with
  | [] => .ok b
  | c :: t =>
    match readEvent c t with
    | .error cause => .error (.malformed (Text.offsetOf whole (c :: t)) cause)
    | .ok (event, ⟨r, _⟩) =>
      match take opened b event with
      | .error fault => .error (fault.at (Text.offsetOf whole (c :: t)))
      | .ok (opened, b) => build whole opened b r
termination_by s.length
decreasing_by
  all_goals
    simp only [List.length_cons] at *
    omega

/-- A byte order mark at the start is no part of the document. -/
def withoutByteOrderMark : List Char → List Char
  | '\uFEFF' :: s => s
  | s => s

def read (source : String) : Except Error Tree :=
  let s := withoutByteOrderMark source.toList
  match build s [] ⟨Tree.empty, []⟩ s with
  | .error error => .error error
  | .ok ⟨_, _ :: _⟩ => .error (.malformed source.utf8ByteSize .unclosedElement)
  | .ok ⟨tree, []⟩ => if tree.root?.isSome then .ok tree else .error .missingRoot

end PartPatch.Xml
