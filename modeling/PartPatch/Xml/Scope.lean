import PartPatch.Tree.Basic

/-!
# Namespace scopes

The declarations in force at an element: its own and those of its ancestors, innermost first. The
first declaration of a prefix counts; the prefix `xml` is always bound.
-/

namespace PartPatch.Xml

set_option autoImplicit false

abbrev Scope := List (List NamespaceDecl)

def xmlNamespace : String := "http://www.w3.org/XML/1998/namespace"

/-- The namespace that the prefix, or the absence of one, is bound to. -/
def lookup? (qualifier : Option String) (scope : Scope) : Option String :=
  if qualifier = some "xml" then some xmlNamespace
  else (scope.flatten.find? fun d => d.qualifier = qualifier).map NamespaceDecl.uri

/-- The prefix and the local part of a name as it is written. -/
def splitName (raw : List Char) : Option String × String :=
  match raw.dropWhile (· != ':') with
  | [] => (none, String.ofList raw)
  | _ :: localName => (some (String.ofList (raw.takeWhile (· != ':'))), String.ofList localName)

end PartPatch.Xml
