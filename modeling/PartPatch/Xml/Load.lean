import PartPatch.Files
import PartPatch.Xml.Printer
import PartPatch.Xml.Reader

/-!
# Documents in files
-/

namespace PartPatch.Xml

set_option autoImplicit false

inductive LoadError where
  | unreadable (path : String) (cause : FileError)
  | invalid (error : Error)
deriving DecidableEq, Repr

/-- What is said of a file that cannot be read or written. -/
def fileErrorText (path : String) (cause : FileError) : String :=
  "I/O error on " ++ path ++ ": " ++ cause.message

def LoadError.message : LoadError → String
  | .unreadable path cause => fileErrorText path cause
  | .invalid error => error.message

/-- The messages of what led to the error, outermost first. -/
def LoadError.causes : LoadError → List String
  | .unreadable _ cause => [cause.message]
  | .invalid _ => []

def load (files : Files) (path : String) : Except LoadError Tree :=
  match files.read path with
  | .error cause => .error (.unreadable path cause)
  | .ok text => (read text).mapError .invalid

def save (files : Files) (path : String) (t : Tree) : Except FileError Files :=
  files.write path (write t)

end PartPatch.Xml
