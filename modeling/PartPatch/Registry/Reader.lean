import PartPatch.Registry.Document
import PartPatch.Toml.Reader
import PartPatch.Toml.Record

/-!
# Reading registry documents

Records refuse keys that they do not know, but for the document's metadata and names given in two
parts. Names in two parts are written as tables only.
-/

namespace PartPatch.Registry

set_option autoImplicit false

open Toml (Value RecordShape)

def metadataShape : RecordShape :=
  ⟨[["name"], ["description"], ["version"]], false⟩

def readMetadata? (v : Value) : Option Metadata := do
  let fields ← metadataShape.fields? v
  return {
    name := ← fields.withDefault? "name" "" Value.string?
    description := ← fields.optional? "description" Value.string?
    version := ← fields.optional? "version" Value.string? }

def nameShape : RecordShape :=
  ⟨[["name"], ["ns"]], false⟩

def readName? : Value → Option NameDefinition
  | .string text => some (.short text)
  | v => do
    let fields ← nameShape.tableFields? v
    return .full (← fields.required? "name" Value.string?)
      (← fields.optional? "ns" Value.string?)

def identifierShape : RecordShape :=
  ⟨[["attributes"], ["prefix"], ["max"]], true⟩

def readIdentifier? (v : Value) : Option IdentifierDefinition := do
  let fields ← identifierShape.fields? v
  return {
    attributes := ← fields.required? "attributes" (Value.listOf? Value.string?)
    start := ← fields.withDefault? "prefix" "" Value.string?
    max := ← fields.optional? "max" Value.natural? }

def fragmentShape : RecordShape :=
  ⟨[["element"], ["attrs"], ["text"], ["children"]], true⟩

def readFragment? (v : Value) : Option FragmentDefinition :=
  match _h : fragmentShape.fields? v with
  | none => none
  | some fields => do
    let element ← fields.required? "element" Value.string?
    let attributes ← fields.withDefault? "attrs" Entries.empty (Value.entriesOf? Value.string?)
    let text ← fields.optional? "text" Value.string?
    let children ← match _hc : fields.lookup "children" with
      | none => some []
      | some (.array items) => items.attach.mapM fun ⟨item, _⟩ => readFragment? item
      | some _ => none
    return .node element attributes text children
termination_by sizeOf v
decreasing_by
  have h₁ := List.sizeOf_lt_of_mem ‹item ∈ items›
  have h₂ := fragmentShape.sizeOf_lt_of_fields? _h (Toml.mem_of_lookup _hc)
  simp only [Value.array.sizeOf_spec] at h₂
  omega

def relationshipShape : RecordShape :=
  ⟨[["source"], ["type"]], true⟩

def readRelationship? (v : Value) : Option RelationshipSpec := do
  let fields ← relationshipShape.fields? v
  return {
    source := ← fields.required? "source" Value.string?
    type := ← fields.required? "type" Value.string? }

def partShape : RecordShape :=
  ⟨[["name"], ["content_type"], ["relationship"]], true⟩

def readPart? (v : Value) : Option PartSpec := do
  let fields ← partShape.fields? v
  return {
    name := ← fields.required? "name" Value.string?
    contentType := ← fields.required? "content_type" Value.string?
    relationship := ← fields.optional? "relationship" readRelationship? }

def documentShape : RecordShape :=
  ⟨[["meta"], ["namespaces"], ["elements"], ["attributes"], ["identifiers"], ["values"], ["paths"],
    ["fragments"], ["parts"]], true⟩

def ofEntries? (entries : List (String × Value)) : Option Document := do
  let fields ← documentShape.tableFields? (.table entries)
  let table {α : Type} (name : String) (value? : Value → Option α) : Option (Entries α) :=
    fields.withDefault? name Entries.empty (Value.entriesOf? value?)
  return {
    metadata := ← fields.withDefault? "meta" ⟨"", none, none⟩ readMetadata?
    namespaces := ← table "namespaces" Value.string?
    elements := ← table "elements" readName?
    attributes := ← table "attributes" readName?
    identifiers := ← table "identifiers" readIdentifier?
    values := ← table "values" Value.string?
    paths := ← table "paths" Value.string?
    fragments := ← table "fragments" readFragment?
    parts := ← table "parts" readPart? }

/-- The document in a TOML text, if it is one. -/
def Document.read? (source : String) : Option Document :=
  (Toml.read? source).bind ofEntries?

end PartPatch.Registry
