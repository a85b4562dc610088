import PartPatch.Tree.Content
import PartPatch.Xml.Escape
import PartPatch.Xml.Scope

/-!
# Writing a document

Elements are written with their own declarations and with those that their name and the names of
their attributes need and that are not in force around them. A declaration that would bind such a
prefix to another namespace gives way.
-/

namespace PartPatch.Xml

set_option autoImplicit false

/-- Makes sure that the prefix is bound to the namespace, the empty text standing for none. -/
def require (scope : Scope) (qualifier : Option String) (uri : String)
    (declarations : List NamespaceDecl) : List NamespaceDecl :=
  if qualifier = some "xml" then declarations
  else if (lookup? qualifier (declarations :: scope)).getD "" = uri then declarations
  else declarations.filter (fun d => d.qualifier ≠ qualifier) ++ [⟨qualifier, uri⟩]

/-- The declarations to write on the element. -/
def writtenDeclarations (scope : Scope) (e : Element) : List NamespaceDecl :=
  e.attributes.foldl
    (fun declarations a => match a.name.qualifier, a.name.namespaceUri with
      | some qualifier, some uri => require scope (some qualifier) uri declarations
      | _, _ => declarations)
    (require scope e.name.qualifier (e.name.namespaceUri.getD "") e.declarations)

def declarationText (d : NamespaceDecl) : String :=
  (match d.qualifier with
    | some qualifier => " xmlns:" ++ qualifier
    | none => " xmlns") ++ "=\"" ++ escapeValue d.uri ++ "\""

def attributeText (a : Attribute) : String :=
  " " ++ a.name.qualified ++ "=\"" ++ escapeValue a.value ++ "\""

def tagText (declarations : List NamespaceDecl) (e : Element) : String :=
  e.name.qualified ++ String.join (declarations.map declarationText) ++
    String.join (e.attributes.map attributeText)

mutual

def contentText (scope : Scope) : Content → String
  | .text s => escapeText s
  | .comment s => "<!--" ++ s ++ "-->"
  | .element e [] => "<" ++ tagText (writtenDeclarations scope e) e ++ "/>"
  | .element e (child :: children) =>
    let declarations := writtenDeclarations scope e
    "<" ++ tagText declarations e ++ ">" ++ contentText (declarations :: scope) child ++
      contentsText (declarations :: scope) children ++ "</" ++ e.name.qualified ++ ">"

def contentsText (scope : Scope) : List Content → String
  | [] => ""
  | c :: cs => contentText scope c ++ contentsText scope cs

end

def headerText (h : Header) : String :=
  "<?xml version=\"" ++ h.version ++ "\"" ++
    (match h.encoding with
      | some encoding => " encoding=\"" ++ encoding ++ "\""
      | none => "") ++
    (match h.standalone with
      | some standalone => " standalone=\"" ++ standalone ++ "\""
      | none => "") ++ "?>\n"

/-- The text of the attached nodes. -/
def write (t : Tree) : String :=
  (match t.header with
    | some header => headerText header
    | none => "") ++ contentsText [] t.content

end PartPatch.Xml
