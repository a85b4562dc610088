import PartPatch.Path.Basic

/-!
# The canonical text of a path

Every element step is written with its axis, except a child step that opens a predicate, and a
comparison is written with one space on either side of the equals sign.
-/

namespace PartPatch.Path

set_option autoImplicit false

def testText : NameTest → String
  | .named symbol => symbol
  | .any => "*"

/-- The separator in front of an element step; `leading` marks the first step of a predicate. -/
def axisText (leading : Bool) : Axis → String
  | .child => if leading then "" else "/"
  | .descendant => "//"

mutual

def stepText (leading : Bool) : Step → String
  | .element axis test => axisText leading axis ++ testText test
  | .attribute symbol => axisText leading .child ++ "@" ++ symbol
  | .predicate path equals =>
    "[" ++ stepsText true path ++ (match equals with
      | some name => " = $" ++ name
      | none => "") ++ "]"

def stepsText (leading : Bool) : List Step → String
  | [] => ""
  | step :: steps => stepText leading step ++ stepsText false steps

end

/-- The canonical text. -/
def text (p : Path) : String :=
  stepsText false p.steps

end PartPatch.Path
