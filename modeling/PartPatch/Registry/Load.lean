import PartPatch.Files
import PartPatch.Registry.Compile
import PartPatch.Registry.Reader

/-!
# Loading registries

A registry is loaded from one or more layers, the base first. All layers are read before the merged
document is compiled, so a layer may use the symbols of those below it.
-/

namespace PartPatch.Registry

set_option autoImplicit false

inductive LoadError where
  | unreadable (path : String) (cause : FileError)
  | malformed (path : Option String)
  | invalid (path : Option String) (issues : List Issue)
  | noLayers
deriving DecidableEq, Repr

def LoadError.message : LoadError → String
  | .unreadable path cause => "failed to read registry from " ++ path ++ ": " ++ cause.message
  | .malformed path => "failed to parse registry TOML" ++ FilePath.note path ++ ": invalid document"
  | .invalid path issues => "invalid registry" ++ FilePath.note path ++ ":\n" ++ issuesText issues
  | .noLayers => "no registry files given"

/-- The messages of what led to the error, outermost first. -/
def LoadError.causes : LoadError → List String
  | .unreadable _ cause => [cause.message]
  | .malformed _ => ["invalid document"]
  | .invalid _ issues => [issuesText issues]
  | .noLayers => []

/-- Compiles the merged layers; issues are reported for the path. -/
def ofLayers (path : Option String) (layers : List Document) : Except LoadError Registry :=
  match Document.ofLayers? layers with
  | none => .error .noLayers
  | some document => (compile document).mapError (.invalid path)

def readSource (source : String) : Except LoadError Document :=
  match Document.read? source with
  | some document => .ok document
  | none => .error (.malformed none)

def ofSources (sources : List String) : Except LoadError Registry := do
  ofLayers none (← sources.mapM readSource)

def readFile (files : Files) (path : String) : Except LoadError Document :=
  match files.read path with
  | .error cause => .error (.unreadable path cause)
  | .ok source =>
    match Document.read? source with
    | some document => .ok document
    | none => .error (.malformed (some path))

/-- Loads the layers at the paths. Issues are reported for the last of them. -/
def load (files : Files) (paths : List String) : Except LoadError Registry := do
  ofLayers paths.getLast? (← paths.mapM (readFile files))

end PartPatch.Registry
