/-!
# Parts to be created

What a registry says about a part: its absolute name inside the package, its content type, and the
relationship that leads to it, if one is to be recorded.
-/

namespace PartPatch

set_option autoImplicit false

/-- A relationship to be recorded on a part, or on the package if the source is `/`. -/
structure RelationshipSpec where
  source : String
  type : String
deriving DecidableEq, Repr

structure PartSpec where
  name : String
  contentType : String
  relationship : Option RelationshipSpec
deriving DecidableEq, Repr

end PartPatch
