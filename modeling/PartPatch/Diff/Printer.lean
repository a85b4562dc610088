import PartPatch.Diff.Script
import PartPatch.Text.Lines

/-!
# Differences between texts

Two texts are compared line by line. Every line is shown after the sign of what becomes of it.
-/

namespace PartPatch.Diff

set_option autoImplicit false

def Mark.sign : Mark → Char
  | .kept => ' '
  | .deleted => '-'
  | .inserted => '+'

def lineText (change : Change (List Char)) : String :=
  String.ofList (change.1.sign :: Text.ended change.2)

/-- The changed and unchanged lines of two texts. -/
def textOf (old new : String) : String :=
  String.join ((changes (Text.lines old.toList) (Text.lines new.toList)).map lineText)

end PartPatch.Diff
