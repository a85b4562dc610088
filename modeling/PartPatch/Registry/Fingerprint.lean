import PartPatch.Registry.Basic
import PartPatch.Text.Basic

/-!
# Fingerprints of registries

A short number by which two registries can be told apart at a glance. It depends on the document
only, and on the order of its entries.
-/

namespace PartPatch.Registry

set_option autoImplicit false

deriving instance Hashable for Metadata, NameDefinition, IdentifierDefinition

deriving instance Hashable for RelationshipSpec, PartSpec

namespace FragmentDefinition

mutual

def digest : FragmentDefinition → UInt64
  | .node element attributes text children =>
    mixHash (hash (element, attributes.toList, text)) (digestAll children)

def digestAll : List FragmentDefinition → UInt64
  | [] => 7
  | c :: cs => mixHash (digest c) (digestAll cs)

end

instance : Hashable FragmentDefinition := ⟨digest⟩

end FragmentDefinition

def Document.digest (d : Document) : UInt64 :=
  hash (d.metadata, d.namespaces.toList, d.elements.toList, d.attributes.toList,
    d.identifiers.toList, d.values.toList, d.paths.toList, d.fragments.toList, d.parts.toList)

/-- The digits of a number in base 16, led by zeros up to the width. -/
def hexadecimal (width n : Nat) : String :=
  let digits := String.ofList (Nat.toDigits 16 n)
  Text.replicate (width - digits.length) "0" ++ digits

/-- The fingerprint in sixteen digits of base 16. -/
def fingerprint (r : Registry) : String :=
  hexadecimal 16 r.document.digest.toNat

end PartPatch.Registry
