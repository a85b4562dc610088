import PartPatch.Package.Part
import PartPatch.Tree.Basic
import PartPatch.Xml.Load

/-!
# Packages

A package holds parts by name. All that is asked of it is whether it has a part, and to take in a
new one.
-/

namespace PartPatch

set_option autoImplicit false

/-- Why a package could not store a part. -/
inductive RejectionCause where
  | relationships (error : Xml.LoadError)
  | directory (cause : FileError)
  | file (path : String) (cause : FileError)
deriving DecidableEq, Repr

inductive PartError where
  | alreadyExists (part : String)
  | missingSource (source : String)
  | rejected (part : String) (cause : RejectionCause)
  /-- The greatest number of 64 bits is in use, and the one after it is asked for. This is no answer:
  the program ends here. -/
  | overflow
deriving DecidableEq, Repr

def RejectionCause.message : RejectionCause → String
  | .relationships error => error.message
  | .directory cause => cause.message
  | .file path cause => Xml.fileErrorText path cause

def PartError.message : PartError → String
  | .alreadyExists part => "part already exists: " ++ part
  | .missingSource source => "relationship source part not found: " ++ source
  | .rejected part cause => "package rejected part " ++ part ++ ": " ++ cause.message
  | .overflow => "attempt to add with overflow"

/-- A part that was created, with the identifier of the relationship recorded for it. -/
structure CreatedPart where
  name : String
  relationshipId : Option String
deriving DecidableEq, Repr

/-- A kind of package. Creating a part may leave traces in the package even if it fails. -/
class Package (P : Type) where
  hasPart : P → String → Bool
  createPart : P → PartSpec → Tree → Except PartError CreatedPart × P

/-- What stands in the way of a new part: one of its name, or the lack of its relationship's
source. -/
def PartSpec.obstacle? (part : PartSpec) (hasPart : String → Bool) : Option PartError :=
  if hasPart part.name then some (.alreadyExists part.name)
  else match part.relationship with
    | none => none
    | some spec =>
      if spec.source = "/" ∨ hasPart spec.source then none
      else some (.missingSource spec.source)

end PartPatch
