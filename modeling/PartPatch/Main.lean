import PartPatch.Cli.Run

/-!
# The program

Reads the files that the arguments name, runs the command on them, and writes what has changed.
-/

namespace PartPatch.Cli

set_option autoImplicit false

/-- Adds the file at a path, if there is one that can be read as text. -/
def addFile (files : Files) (path : String) : IO Files := do
  try return files.add path (← IO.FS.readFile path)
  catch _ => return files

/-- Adds what stands at a path; of a directory its files, and those of the directories in it down to
the depth. -/
def addPath (depth : Nat) (files : Files) (path : String) : IO Files := do
  let place := (← IO.currentDir) / path
  if !(← place.isDir) then return ← addFile files path
  let mut found := files.addDirectory path
  match depth with
  | 0 => return found
  | depth + 1 =>
    for entry in ← place.readDir do
      found ← addPath depth found (FilePath.join path entry.fileName)
    return found

/-- The paths that a command looks at, each with the depth to which it does so. -/
def Request.paths : Request → List (String × Nat)
  | .apply o =>
    o.registry.map (·, 0) ++ [(o.patches, 1), (o.part, 0)] ++ o.tokens.toList.map (·, 0) ++
      o.output.toList.flatMap (fun path => [(FilePath.parent path, 0), (path, 0)]) ++
      o.partsDir.toList.map (·, 64)
  | .check registry patches => registry.map (·, 0) ++ patches.toList.map (·, 1)
  | .list registry => registry.map (·, 0)
  | .help _ | .version => []

def readFiles (request : Option Request) : IO Files :=
  ((request.map Request.paths).getD []).foldlM
    (fun files (path, depth) => addPath depth files path) .empty

/-- Writes the files that are new or changed. -/
def writeFiles (old new : Files) : IO Unit :=
  (new.contents.filter fun entry => !old.contents.contains entry).forM fun (path, content) => do
    IO.FS.createDirAll (FilePath.parent path)
    IO.FS.writeFile path content

end PartPatch.Cli

open PartPatch.Cli in
def main (arguments : List String) : IO UInt32 := do
  let files ← readFiles (Request.read? arguments)
  let outcome := run arguments files
  IO.print outcome.output
  IO.eprint outcome.errors
  writeFiles files outcome.files
  return outcome.code.toUInt32
