import PartPatch.Cli.Failure

/-!
# Outcomes of commands

What a command leaves behind: its exit code, what it says on both channels, and the files.
-/

namespace PartPatch.Cli

set_option autoImplicit false

structure Outcome where
  code : Nat
  output : String
  errors : String
  files : Files
deriving DecidableEq, Repr

/-- Ends a command that has said `output` so far. -/
def Outcome.ofFailure (output : String) (f : Failure) (files : Files) : Outcome :=
  ⟨1, output, f.text, files⟩

def line (text : String) : String :=
  text ++ "\n"

/-- How the loaded registry is announced. -/
def registryLine (r : Registry) : String :=
  let name := r.metadata.name
  line ("Registry: " ++ (if name = "" then "(unnamed)" else name) ++ " " ++
    r.metadata.version.getD "(unversioned)")

end PartPatch.Cli
