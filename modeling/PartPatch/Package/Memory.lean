import PartPatch.Package.Basic
import PartPatch.Package.Relationship

/-!
# Packages in memory
-/

namespace PartPatch

set_option autoImplicit false

structure MemoryPackage where
  parts : Entries Tree
  metadata : PackageMetadata
deriving DecidableEq

namespace MemoryPackage

def empty : MemoryPackage := ⟨.empty, .empty⟩

def hasPart (p : MemoryPackage) (name : String) : Bool :=
  p.parts.contains name

/-- Puts a part into the package without recording anything about it. -/
def insertPart (p : MemoryPackage) (name : String) (body : Tree) : MemoryPackage :=
  { p with parts := p.parts.insert name body }

/-- Records relationships that the package already has. -/
def addRelationships (p : MemoryPackage) (source : String) (rs : List Relationship) :
    MemoryPackage :=
  { p with metadata := p.metadata.addRelationships source rs }

def createPart (p : MemoryPackage) (part : PartSpec) (body : Tree) :
    Except PartError CreatedPart × MemoryPackage :=
  match part.obstacle? p.hasPart with
  | some e => (.error e, p)
  | none =>
    match p.metadata.register part with
    | .error e => (.error e, p)
    | .ok (metadata, id) => (.ok ⟨part.name, id⟩, ⟨p.parts.insert part.name body, metadata⟩)

instance : Package MemoryPackage where
  hasPart := hasPart
  createPart := createPart

end MemoryPackage

end PartPatch
