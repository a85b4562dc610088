import PartPatch.Entries
import PartPatch.Package.Basic
import PartPatch.Text.Number

/-!
# Relationships and content types

What a package records about its parts. Each relationship stands on a source and has an identifier
there; new ones are numbered on from the greatest number in use.
-/

namespace PartPatch

set_option autoImplicit false

structure Relationship where
  id : String
  type : String
  target : String
deriving DecidableEq, Repr

namespace Relationship

/-- What every identifier that is given out begins with. -/
def idStart : String := "rId"

/-- The number of an identifier, if it has the usual form. -/
def number? (r : Relationship) : Option Nat :=
  (Text.after? idStart.toList r.id.toList).bind Text.number?

def ofElement? (e : Element) : Option Relationship :=
  if e.name.localName = "Relationship" then
    (e.attribute? "Id" none).map fun id =>
      ⟨id.value, ((e.attribute? "Type" none).map Attribute.value).getD "",
        ((e.attribute? "Target" none).map Attribute.value).getD ""⟩
  else none

/-- The relationships that a document lists below its root. Those without an identifier do not
count. -/
def ofTree (t : Tree) : List Relationship :=
  match t.root? with
  | none => []
  | some root => ((t.childElements root).filterMap t.element?).filterMap ofElement?

/-- The text up to the last slash, which is left out, and the text after it. -/
def splitAtLastSlash? (s : List Char) : Option (List Char × List Char) :=
  (Text.cut? ['/'] s.reverse).map fun (last, rest) => (rest.reverse, last.reverse)

/-- The name of the part that lists the relationships on a source. -/
def partName (source : String) : String :=
  if source = "/" then "/_rels/.rels"
  else match splitAtLastSlash? source.toList with
    | some (directory, name) =>
      String.ofList directory ++ "/_rels/" ++ String.ofList name ++ ".rels"
    | none => "/_rels/" ++ source ++ ".rels"

end Relationship

/-- The content types of created parts, and relationships by source. -/
structure PackageMetadata where
  contentTypes : Entries String
  relationships : Entries (List Relationship)
deriving DecidableEq

namespace PackageMetadata

def empty : PackageMetadata := ⟨.empty, .empty⟩

def contentType? (m : PackageMetadata) (part : String) : Option String :=
  m.contentTypes.find? part

def relationshipsOn (m : PackageMetadata) (source : String) : List Relationship :=
  (m.relationships.find? source).getD []

/-- Records a relationship, unless its identifier is in use on the source. -/
def addRelationship (m : PackageMetadata) (source : String) (r : Relationship) :
    PackageMetadata :=
  let existing := m.relationshipsOn source
  { m with
    relationships := m.relationships.insert source
      (if existing.any (·.id = r.id) then existing else existing ++ [r]) }

def addRelationships (m : PackageMetadata) (source : String) (rs : List Relationship) :
    PackageMetadata :=
  rs.foldl (fun m r => m.addRelationship source r) m

/-- The greatest number in use. -/
def greatest (existing : List Relationship) : Nat :=
  (existing.filterMap Relationship.number?).foldl Nat.max 0

/-- The identifier of the next relationship. Its number has to have 64 bits. -/
def nextId (existing : List Relationship) : Except PartError String :=
  let next := greatest existing + 1
  if next ≤ Text.maxNumber then .ok (Relationship.idStart ++ toString next) else .error .overflow

/-- Records a new part; with the identifier of its relationship, if it has one. -/
def register (m : PackageMetadata) (part : PartSpec) :
    Except PartError (PackageMetadata × Option String) :=
  let m := { m with contentTypes := m.contentTypes.insert part.name part.contentType }
  match part.relationship with
  | none => .ok (m, none)
  | some spec =>
    let existing := m.relationshipsOn spec.source
    (nextId existing).map fun id =>
      ({ m with
        relationships := m.relationships.insert spec.source
          (existing ++ [⟨id, spec.type, part.name⟩]) }, some id)

end PackageMetadata

end PartPatch
