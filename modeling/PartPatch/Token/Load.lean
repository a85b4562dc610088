import PartPatch.Files
import PartPatch.Json.Reader
import PartPatch.Token.Table
import PartPatch.Toml.Json
import PartPatch.Toml.Reader

/-!
# Token tables in files

A file whose name ends in `.json` holds JSON, any other TOML.
-/

namespace PartPatch.Token

set_option autoImplicit false

inductive LoadError where
  | unreadable (path : String) (cause : FileError)
  | malformedJson (path : String)
  | malformedToml (path : String)
deriving DecidableEq, Repr

def LoadError.message : LoadError → String
  | .unreadable path cause => "failed to read tokens from " ++ path ++ ": " ++ cause.message
  | .malformedJson path => "failed to parse token JSON (" ++ path ++ "): invalid document"
  | .malformedToml path => "failed to parse token TOML (" ++ path ++ "): invalid document"

/-- The messages of what led to the error, outermost first. -/
def LoadError.causes : LoadError → List String
  | .unreadable _ cause => [cause.message]
  | .malformedJson _ | .malformedToml _ => ["invalid document"]

def Table.load (files : Files) (path : String) : Except LoadError Table :=
  match files.read path with
  | .error cause => .error (.unreadable path cause)
  | .ok source =>
    if FilePath.extension? path = some "json" then
      match Json.read? source with
      | some value => .ok (.ofJson value)
      | none => .error (.malformedJson path)
    else
      match Toml.read? source with
      | some entries => .ok (.ofJson (Toml.entriesToJson entries))
      | none => .error (.malformedToml path)

end PartPatch.Token
