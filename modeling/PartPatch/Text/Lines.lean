/-!
# Lines of a text

A line ends after a line feed, after a carriage return and a line feed, or after a carriage return
alone. The last line may lack an end.
-/

namespace PartPatch.Text

set_option autoImplicit false

def lines : List Char → List (List Char)
  | [] => []
  | '\r' :: '\n' :: s => ['\r', '\n'] :: lines s
  | c :: s =>
    if c = '\r' ∨ c = '\n' then [c] :: lines s
    else match lines s with
      | [] => [[c]]
      | line :: more => (c :: line) :: more

theorem flatten_lines (s : List Char) : (lines s).flatten = s := by
  fun_induction lines s <;> simp_all

/-- Whether the line has an end. -/
def isEnded (line : List Char) : Bool :=
  line.getLast? == some '\n' || line.getLast? == some '\r'

/-- The line with a line feed if it has no end of its own. -/
def ended (line : List Char) : List Char :=
  if isEnded line then line else line ++ ['\n']

end PartPatch.Text
