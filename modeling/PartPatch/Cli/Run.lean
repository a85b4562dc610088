import PartPatch.Cli.Apply
import PartPatch.Cli.Check
import PartPatch.Cli.Help
import PartPatch.Cli.List

/-!
# Running commands
-/

namespace PartPatch.Cli

set_option autoImplicit false

def Request.run (files : Files) : Request → Outcome
  | .apply options => Cli.apply options files
  | .check registry patches => Cli.check registry patches files
  | .list registry => Cli.list registry files
  | .help topic => ⟨0, topic.text, "", files⟩
  | .version => ⟨0, versionText, "", files⟩

/-- What a command line leads to. Arguments that are not in order are answered with code 2. -/
def run (arguments : List String) (files : Files) : Outcome :=
  match Request.read? arguments with
  | none => ⟨2, "", misuseText, files⟩
  | some request => request.run files

end PartPatch.Cli
