import PartPatch.Patch.Load
import PartPatch.Registry.Load
import PartPatch.Token.Load
import PartPatch.Xml.Load

/-!
# Failures of commands

What can end a command before its work is done, and how it is told: the message, and below it the
messages of what led to it.
-/

namespace PartPatch.Cli

set_option autoImplicit false

inductive Failure where
  | registry (error : Registry.LoadError)
  | tokens (error : Token.LoadError)
  | patch (error : Patch.LoadError)
  | noPatches (path : String)
  | noPartsDirectory (file : String)
  | part (path : String) (error : Xml.LoadError)
  | output (path : String) (cause : FileError)
deriving DecidableEq, Repr

namespace Failure

def message : Failure → String
  | .registry error => error.message
  | .tokens error => error.message
  | .patch error => error.message
  | .noPatches path => "No .toml patch files found in " ++ path
  | .noPartsDirectory file => file ++
      " uses ensurePart; pass --parts-dir with the extracted package root so new parts are written"
  | .part path _ => "failed to read part " ++ path
  | .output path _ => "failed to write " ++ path

/-- The messages of what led to the failure, outermost first. -/
def causes : Failure → List String
  | .registry error => error.causes
  | .tokens error => error.causes
  | .patch error => error.causes
  | .noPatches _ | .noPartsDirectory _ => []
  | .part _ error => error.message :: error.causes
  | .output path cause => [Xml.fileErrorText path cause, cause.message]

end Failure

/-- A text with every line but the first moved to the right. -/
def hanging (width : Nat) (text : String) : String :=
  ("\n" ++ Text.replicate width " ").intercalate ((Text.split '\n' text.toList).map String.ofList)

/-- A number right-aligned in five columns. -/
def numberText (n : Nat) : String :=
  let digits := toString n
  Text.replicate (5 - digits.length) " " ++ digits

/-- The causes below their heading; numbered from zero if there are several. -/
def causesText : List String → String
  | [] => ""
  | [cause] => "\n\nCaused by:\n    " ++ hanging 4 cause
  | causes => "\n\nCaused by:" ++ String.join (causes.zipIdx.map fun (cause, n) =>
      "\n" ++ numberText n ++ ": " ++ hanging 7 cause)

def Failure.text (f : Failure) : String :=
  "Error: " ++ f.message ++ causesText f.causes ++ "\n"

end PartPatch.Cli
