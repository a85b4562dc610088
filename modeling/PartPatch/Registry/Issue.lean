import PartPatch.Fragment.Template
import PartPatch.Path.Reader
import PartPatch.Version.Reader

/-!
# Issues of a registry document

Each issue names the entry it was found in, by table and key.
-/

namespace PartPatch.Registry

set_option autoImplicit false

inductive SymbolKind where
  | element
  | attribute
deriving DecidableEq, Repr

def SymbolKind.text : SymbolKind → String
  | .element => "element"
  | .attribute => "attribute"

inductive Fault where
  | undefinedNamespace (qualifier : String)
  | undefinedSymbol (kind : SymbolKind) (symbol : String) (suggestion : Option String)
  | malformedPath (source : String) (error : Path.Error)
  | undefinedIdentifierSpace (name : String)
  | malformedPlaceholder (error : TemplateText.Error)
  | invalidPrefix
  | invalidVersion (version : String) (error : Version.Error)
  | invalidKey (name : String)
  | invalidLocalName (name : String)
  | relativePartName (name : String)
  | emptyContentType
deriving DecidableEq, Repr

def Fault.message : Fault → String
  | .undefinedNamespace qualifier => "undefined namespace prefix '" ++ qualifier ++ "'"
  | .undefinedSymbol kind symbol suggestion =>
    "undefined " ++ kind.text ++ " symbol '" ++ symbol ++ "'" ++
      (match suggestion with
        | some candidate => " (did you mean '" ++ candidate ++ "'?)"
        | none => "")
  | .malformedPath source error => "malformed path '" ++ source ++ "' " ++ error.message
  | .undefinedIdentifierSpace name => "undefined identifier namespace '" ++ name ++ "'"
  | .malformedPlaceholder error => error.message
  | .invalidPrefix => "namespace prefix must be a plain XML name"
  | .invalidVersion version error =>
    "'" ++ version ++ "' is not a semver version: " ++ error.message
  | .invalidKey name => "'" ++ name ++ "' is not a valid registry key"
  | .invalidLocalName name => "invalid local name '" ++ name ++ "'"
  | .relativePartName name => "part name '" ++ name ++ "' must be absolute"
  | .emptyContentType => "content_type must not be empty"

structure Issue where
  /-- Table and key of the entry, joined by a full stop. -/
  key : String
  fault : Fault
deriving DecidableEq, Repr

def Issue.message (i : Issue) : String :=
  i.key ++ ": " ++ i.fault.message

/-- The messages of all issues, one a line. -/
def issuesText (issues : List Issue) : String :=
  "\n".intercalate (issues.map Issue.message)

end PartPatch.Registry
