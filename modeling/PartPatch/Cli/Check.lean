import PartPatch.Cli.Outcome

/-!
# The command `check`

Loads a registry, and the patches if there are any. A patch that is not valid does not keep the
others from being checked.
-/

namespace PartPatch.Cli

set_option autoImplicit false

def countsLine (r : Registry) : String :=
  line ("✓ " ++ toString r.paths.toList.length ++ " paths, " ++
    toString r.fragments.toList.length ++ " fragments, " ++
    toString r.document.parts.toList.length ++ " parts")

/-- The patches of the files, each as far as it is valid. -/
def checkAll (files : Files) (r : Registry) (paths : List String) :
    List (String × Except Patch.LoadError Patch) :=
  paths.map fun path => (path, Patch.loadFor files path r)

/-- What is said of the patches that are valid. -/
def validLines (results : List (String × Except Patch.LoadError Patch)) : List String :=
  results.filterMap fun (path, result) =>
    match result with
    | .ok patch =>
      some (line ("✓ " ++ path ++ ": " ++ toString patch.operations.length ++ " operations"))
    | .error _ => none

/-- What is said of the patches that are not valid. -/
def invalidLines (results : List (String × Except Patch.LoadError Patch)) : List String :=
  results.filterMap fun (_, result) =>
    match result with
    | .ok _ => none
    | .error e => some (line ("✗ " ++ e.message))

def checkPatches (files : Files) (r : Registry) (output : String) (path : String) : Outcome :=
  match Patch.discover files path with
  | .error e => .ofFailure output (.patch e) files
  | .ok paths =>
    let results := checkAll files r paths
    let valid := validLines results
    let invalid := invalidLines results
    let summary := "\n" ++ line "Summary:" ++ line ("  " ++ toString valid.length ++ " valid") ++
      line ("  " ++ toString invalid.length ++ " invalid")
    ⟨if invalid = [] then 0 else 1, output ++ String.join valid ++ summary, String.join invalid,
      files⟩

def check (registry : List String) (patches : Option String) (files : Files) : Outcome :=
  let heading := line "Checking registry..."
  match Registry.load files registry with
  | .error e => .ofFailure heading (.registry e) files
  | .ok r =>
    let output := heading ++ registryLine r ++ countsLine r
    match patches with
    | none => ⟨0, output, "", files⟩
    | some path => checkPatches files r (output ++ "\n") path

end PartPatch.Cli
