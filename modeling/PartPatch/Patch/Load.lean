import PartPatch.Files
import PartPatch.Patch.Validate

/-!
# Loading patches

A patch is read from one file. A directory stands for all files in it whose names end in `.toml`,
in the order of their names; directories inside it are not looked into.
-/

namespace PartPatch.Patch

set_option autoImplicit false

inductive LoadError where
  | unreadable (path : String) (cause : FileError)
  | malformed (path : Option String)
  | invalid (path : Option String) (issues : List Issue)
  | unlistable (path : String) (cause : FileError)
deriving DecidableEq, Repr

/-- What is said of a directory that cannot be listed. -/
def listingText (path : String) (cause : FileError) : String :=
  "IO error for operation on " ++ path ++ ": " ++ cause.message

def LoadError.message : LoadError → String
  | .unreadable path cause => "failed to read patch file " ++ path ++ ": " ++ cause.message
  | .malformed path => "failed to parse patch file TOML" ++ FilePath.note path ++ ": invalid document"
  | .invalid path issues => "invalid patch file" ++ FilePath.note path ++ ":\n" ++ issuesText issues
  | .unlistable path cause =>
    "failed to list patch files in " ++ path ++ ": " ++ listingText path cause

/-- The messages of what led to the error, outermost first. -/
def LoadError.causes : LoadError → List String
  | .unreadable _ cause => [cause.message]
  | .malformed _ => ["invalid document"]
  | .invalid _ issues => [issuesText issues]
  | .unlistable path cause => [listingText path cause, cause.message]

/-- Reads the text of a patch file, with its path if it has one. -/
def ofSource (path : Option String) (source : String) : Except LoadError Patch :=
  match Document.read? source with
  | none => .error (.malformed path)
  | some document => document.validate.mapError (.invalid path)

def load (files : Files) (path : String) : Except LoadError Patch :=
  match files.read path with
  | .error cause => .error (.unreadable path cause)
  | .ok source => ofSource (some path) source

/-- Loads a patch and checks that it suits the registry. -/
def loadFor (files : Files) (path : String) (r : Registry) : Except LoadError Patch := do
  let patch ← load files path
  match patch.issuesAgainst r with
  | [] => return patch
  | issues => throw (.invalid (some path) issues)

/-- The paths of the patch files that a path stands for. -/
def discover (files : Files) (path : String) : Except LoadError (List String) :=
  if files.isFile path then .ok [path]
  else match files.follow path with
    | .error cause => .error (.unlistable path cause)
    | .ok place =>
      match files.item? place with
      | none => .error (.unlistable path .notFound)
      | some _ =>
        .ok ((files.entries place).filterMap fun (name, item) =>
          match item with
          | .file _ =>
            if FilePath.extension? name = some "toml" then some (FilePath.join path name) else none
          | .directory => none)

end PartPatch.Patch
