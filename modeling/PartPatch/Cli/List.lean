import PartPatch.Cli.Outcome
import PartPatch.Registry.Fingerprint

/-!
# The command `list`
-/

namespace PartPatch.Cli

set_option autoImplicit false

/-- What a registry defines. -/
def listing (r : Registry) : String :=
  line ("Fingerprint: " ++ r.fingerprint) ++ "\n" ++
    line "Paths:" ++
    String.join (r.paths.values.map fun p => line ("  " ++ p.name ++ " = " ++ p.source)) ++
    line "Fragments:" ++
    String.join (r.fragments.values.map fun f => line ("  " ++ f.name)) ++
    line "Parts:" ++
    String.join (r.document.parts.toList.map fun (key, p) =>
      line ("  " ++ key ++ " -> " ++ p.name ++ " (" ++ p.contentType ++ ")"))

def list (registry : List String) (files : Files) : Outcome :=
  match Registry.load files registry with
  | .error e => .ofFailure "" (.registry e) files
  | .ok r => ⟨0, registryLine r ++ listing r, "", files⟩

end PartPatch.Cli
