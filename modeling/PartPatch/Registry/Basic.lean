import PartPatch.Fragment.Basic
import PartPatch.Identifier.Space
import PartPatch.Path.Basic
import PartPatch.Registry.Document

/-!
# Registries

A registry is a document all of whose symbols are resolved. It keeps the document it was made from,
by which it is known.
-/

namespace PartPatch

set_option autoImplicit false

structure Registry where
  document : Registry.Document
  elements : Entries QName
  attributes : Entries QName
  identifiers : Entries IdentifierSpace
  paths : Entries NamedPath
  fragments : Entries Fragment

namespace Registry

def metadata (r : Registry) : Metadata :=
  r.document.metadata

def element? (r : Registry) (symbol : String) : Option QName :=
  r.elements.find? symbol

def attribute? (r : Registry) (symbol : String) : Option QName :=
  r.attributes.find? symbol

def identifierSpace? (r : Registry) (name : String) : Option IdentifierSpace :=
  r.identifiers.find? name

def value? (r : Registry) (name : String) : Option String :=
  r.document.values.find? name

def path? (r : Registry) (name : String) : Option NamedPath :=
  r.paths.find? name

def fragment? (r : Registry) (name : String) : Option Fragment :=
  r.fragments.find? name

def part? (r : Registry) (name : String) : Option PartSpec :=
  r.document.parts.find? name

end Registry

end PartPatch
