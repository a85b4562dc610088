import PartPatch.Cli.Arguments
import PartPatch.Cli.Outcome
import PartPatch.Diff.Printer
import PartPatch.Package.Directory
import PartPatch.Package.Memory
import PartPatch.Patch.Session

/-!
# The command `apply`

Applies patches to a part, one after the other in one session, up to the first that fails. The part
is written only if none failed; new parts are written when they are created. A dry run writes
nothing.
-/

namespace PartPatch.Cli

set_option autoImplicit false

/-- A patch with the path of its file. -/
structure PatchFile where
  path : String
  patch : Patch

/-- What has to be loaded before patches are applied. -/
structure Setup where
  tokens : Token.Table
  patches : List PatchFile
  tree : Tree

def loadTokens (files : Files) : Option String → Except Failure Token.Table
  | none => .ok .empty
  | some path => (Token.Table.load files path).mapError .tokens

def loadPatches (files : Files) (path : String) (r : Registry) :
    Except Failure (List PatchFile) := do
  match ← (Patch.discover files path).mapError .patch with
  | [] => throw (.noPatches path)
  | paths =>
    paths.mapM fun path =>
      (Patch.loadFor files path r).map (PatchFile.mk path) |>.mapError .patch

/-- Whether the patch may create parts. -/
def createsParts (p : Patch) : Bool :=
  p.operations.any fun record => record.operation.kind = .ensurePart

/-- Loads all that is needed, in the order in which failures are told. -/
def Setup.load (o : ApplyOptions) (files : Files) (r : Registry) : Except Failure Setup := do
  let tokens ← loadTokens files o.tokens
  let patches ← loadPatches files o.patches r
  match patches.find? fun file => createsParts file.patch with
  | some file => if o.partsDir = none then throw (.noPartsDirectory file.path)
  | none => pure ()
  let tree ← (Xml.load files o.part).mapError (.part o.part)
  return ⟨tokens, patches, tree⟩

/-- How far the patches were applied. -/
structure Progress (P : Type) where
  reports : List (String × PatchReport)
  /-- The file of the patch that failed, with its error. -/
  failure : Option (String × PatchError)
  workspace : Workspace P

/-- Applies patches up to the first that fails. -/
def applyAll {P : Type} [Package P] (s : Session) (w : Workspace P) :
    List PatchFile → Progress P
  | [] => ⟨[], none, w⟩
  | file :: more =>
    match s.apply w file.patch with
    | (.error e, w) => ⟨[], some (file.path, e), w⟩
    | (.ok report, w) =>
      let rest := applyAll s w more
      { rest with reports := (file.path, report) :: rest.reports }

/-- What is left of applying patches, whatever kind of package they worked on. -/
structure Result where
  reports : List (String × PatchReport)
  failure : Option (String × PatchError)
  tree : Tree
  /-- The files with the new parts. -/
  files : Files

/-- Applies the patches to the part. New parts go into the directory of the package; where there is
none, none are created. -/
def applySetup (o : ApplyOptions) (files : Files) (r : Registry) (setup : Setup) : Result :=
  let s : Session := ⟨r, setup.tokens.resolve, o.allOptional⟩
  match o.partsDir with
  | some dir =>
    let p := applyAll s ⟨setup.tree, .empty, DirectoryPackage.ofDirectory dir o.dryRun files⟩
      setup.patches
    ⟨p.reports, p.failure, p.workspace.tree, p.workspace.package.files⟩
  | none =>
    let p := applyAll s ⟨setup.tree, .empty, MemoryPackage.empty⟩ setup.patches
    ⟨p.reports, p.failure, p.workspace.tree, files⟩

def outcomeLine (dryRun : Bool) (o : OperationOutcome) : String :=
  let label := operationLabel o.index o.kind o.keys
  match o.result with
  | .applied => line ("✓ " ++ label ++ ": " ++ if dryRun then "Would apply" else "Applied")
  | .alreadyApplied => line ("⊙ " ++ label ++ ": Already applied")
  | .skipped reason | .skippedVersion reason =>
    line ("⊘ " ++ label ++ ": Skipped (" ++ reason ++ ")")

def applyingLine (path : String) : String :=
  line ("Applying " ++ path ++ "...")

def reportText (dryRun : Bool) (path : String) (report : PatchReport) : String :=
  applyingLine path ++ String.join (report.outcomes.map (outcomeLine dryRun)) ++ "\n"

/-- The path under a key as the registry gives it. -/
def pathSource (r : Registry) (key : String) : String :=
  match r.path? key with
  | some p => p.source
  | none => "(unknown)"

/-- What may be done about a failure. -/
def adviceText (r : Registry) : OperationError → String
  | .targetNotFound key =>
    line "  CONFLICT: Path matched no nodes" ++ line ("  Path: " ++ pathSource r key) ++
      line "  Mark the operation optional if the part may lack it"
  | .ambiguousTarget key count =>
    line ("  CONFLICT: Path matched " ++ toString count ++ " nodes (expected 1)") ++
      line ("  Path: " ++ pathSource r key) ++
      line "  Action: Add a predicate to the registry path"
  | .ensureFailed _ fragment =>
    line ("  Fragment '" ++ fragment ++ "' does not satisfy its target path")
  | _ => ""

def failureText (r : Registry) (e : PatchError) : String :=
  line ("✗ " ++ operationLabel e.index e.kind e.keys ++ ": Failed - " ++ e.cause.message) ++
    adviceText r e.cause

def diffText (path before after : String) : String :=
  "\n" ++ line ("--- " ++ path ++ " (original)") ++ line ("+++ " ++ path ++ " (patched)") ++
    Diff.textOf before after ++ "\n"

/-- The sum of a count over all reports. -/
def total (reports : List (String × PatchReport)) (count : PatchReport → Nat) : Nat :=
  reports.foldl (fun n entry => n + count entry.2) 0

def summaryText (reports : List (String × PatchReport)) (failed : Nat) : String :=
  line "Summary:" ++
    line ("  " ++ toString (total reports PatchReport.applied) ++ " applied") ++
    line ("  " ++ toString (total reports PatchReport.alreadyApplied) ++ " already applied") ++
    line ("  " ++ toString (total reports PatchReport.skipped) ++ " skipped") ++
    line ("  " ++ toString failed ++ " failed")

def partHeading (o : ApplyOptions) : String :=
  line ("Part: " ++ o.part) ++
    (if o.dryRun then line "[DRY RUN - nothing will be written]" else "") ++ "\n"

/-- What is said while the patches are applied. -/
def progressText (o : ApplyOptions) (result : Result) : String :=
  String.join (result.reports.map fun (path, report) => reportText o.dryRun path report) ++
    match result.failure with
    | some (path, _) => applyingLine path
    | none => ""

/-- What is said after it. -/
def closingText (o : ApplyOptions) (before after : String) (result : Result) : String :=
  (if o.diff ∧ before ≠ after then diffText o.part before after else "") ++
    summaryText result.reports (if result.failure.isSome then 1 else 0)

/-- Where the part is to be written, if it is. -/
def target? (o : ApplyOptions) (before after : String) : Option String :=
  if o.dryRun then none
  else match o.output with
    | some path => some path
    | none => if before = after then none else some o.part

/-- Writes the part, unless a patch failed. An overflow ends the program where it happens. -/
def finish (o : ApplyOptions) (r : Registry) (heading : String) (setup : Setup)
    (result : Result) : Outcome :=
  let before := Xml.write setup.tree
  let after := Xml.write result.tree
  let progress := heading ++ progressText o result
  let output := progress ++ closingText o before after result
  match result.failure with
  | some (_, e) =>
    if e.cause = .part .overflow then ⟨101, progress, line e.cause.message, result.files⟩
    else ⟨1, output, failureText r e ++ line "Part left unchanged on disk", result.files⟩
  | none =>
    match target? o before after with
    | none => ⟨0, output, "", result.files⟩
    | some path =>
      match Xml.save result.files path result.tree with
      | .error cause => .ofFailure output (.output path cause) result.files
      | .ok files => ⟨0, output ++ line ("Wrote " ++ path), "", files⟩

def apply (o : ApplyOptions) (files : Files) : Outcome :=
  match Registry.load files o.registry with
  | .error e => .ofFailure "" (.registry e) files
  | .ok r =>
    match Setup.load o files r with
    | .error e => .ofFailure (registryLine r) e files
    | .ok setup =>
      finish o r (registryLine r ++ partHeading o) setup (applySetup o files r setup)

end PartPatch.Cli
