/-!
# Versions

A version has a major, a minor and a patch number, and may be a pre-release. Versions are ordered
by their numbers; a pre-release precedes the release with the same numbers.
-/

namespace PartPatch

set_option autoImplicit false

namespace Version

/-- One of the identifiers, separated by full stops, that make up a pre-release. -/
inductive Label where
  | number (n : Nat)
  | word (text : String)
deriving DecidableEq, Repr

/-- Numbers come before words. -/
def Label.compare : Label → Label → Ordering
  | .number a, .number b => Ord.compare a b
  | .number _, .word _ => .lt
  | .word _, .number _ => .gt
  | .word a, .word b => Ord.compare a b

/-- Compares label by label; of two lists where one begins with the other, the longer is greater. -/
def compareLabels : List Label → List Label → Ordering
  | [], [] => .eq
  | [], _ :: _ => .lt
  | _ :: _, [] => .gt
  | a :: as, b :: bs => (a.compare b).then (compareLabels as bs)

/-- Compares pre-releases; a release, which has no labels, is greater than all of them. -/
def comparePrerelease : List Label → List Label → Ordering
  | [], [] => .eq
  | [], _ :: _ => .gt
  | _ :: _, [] => .lt
  | as, bs => compareLabels as bs

end Version

structure Version where
  major : Nat
  minor : Nat
  patch : Nat
  prerelease : List Version.Label
deriving DecidableEq, Repr

namespace Version

/-- The places of a version that a reader may fail at. -/
inductive Place where
  | major
  | minor
  | patch
  | prerelease
  | build
deriving DecidableEq, Repr

def Place.text : Place → String
  | .major => "major version number"
  | .minor => "minor version number"
  | .patch => "patch version number"
  | .prerelease => "pre-release identifier"
  | .build => "build metadata"

end Version

end PartPatch
