import PartPatch.Package.Basic
import PartPatch.Package.Relationship

/-!
# Packages in a directory

The parts of an extracted package are files below its directory. A new part becomes a new file,
unless the run is a rehearsal; relationships and content types are only recorded. Before the first
relationship is recorded on a source, those that its `.rels` part lists are read.
-/

namespace PartPatch

set_option autoImplicit false

structure DirectoryPackage where
  root : String
  /-- Whether parts are recorded without being written. -/
  dryRun : Bool
  files : Files
  /-- The names of the parts created, in order. -/
  created : List String
  /-- The sources whose relationships have been read. -/
  seeded : List String
  metadata : PackageMetadata
deriving DecidableEq

namespace DirectoryPackage

def ofDirectory (root : String) (dryRun : Bool) (files : Files) : DirectoryPackage :=
  ⟨root, dryRun, files, [], [], .empty⟩

/-- The path of a part's file. -/
def pathOf (p : DirectoryPackage) (part : String) : String :=
  FilePath.join p.root (String.ofList (part.toList.dropWhile (· == '/')))

def hasPart (p : DirectoryPackage) (name : String) : Bool :=
  p.created.contains name || p.files.isFile (p.pathOf name)

/-- Records the relationships on a source that its `.rels` part lists. -/
def readRelationships (p : DirectoryPackage) (source : String) :
    Except Xml.LoadError DirectoryPackage :=
  let path := p.pathOf (Relationship.partName source)
  if p.files.isFile path then
    (Xml.load p.files path).map fun t =>
      { p with metadata := p.metadata.addRelationships source (Relationship.ofTree t) }
  else .ok p

/-- Reads the relationships on a source the first time that one is to be recorded on it. A source
counts as read even if reading fails. -/
def seed (p : DirectoryPackage) (part : PartSpec) : Except PartError Unit × DirectoryPackage :=
  match part.relationship with
  | none => (.ok (), p)
  | some spec =>
    if p.seeded.contains spec.source then (.ok (), p)
    else
      let p := { p with seeded := spec.source :: p.seeded }
      match p.readRelationships spec.source with
      | .ok p => (.ok (), p)
      | .error e => (.error (.rejected part.name (.relationships e)), p)

/-- Writes the body of a part. Directories made on the way stay even if writing fails. -/
def store (p : DirectoryPackage) (part : PartSpec) (body : Tree) :
    Except PartError Unit × DirectoryPackage :=
  if p.dryRun then (.ok (), p)
  else
    let path := p.pathOf part.name
    match p.files.makeDirectories (FilePath.namesOf path).dropLast with
    | (.error cause, files) => (.error (.rejected part.name (.directory cause)), { p with files })
    | (.ok (), files) =>
      let p := { p with files }
      match Xml.save files path body with
      | .error cause => (.error (.rejected part.name (.file path cause)), p)
      | .ok files => (.ok (), { p with files })

def createPart (p : DirectoryPackage) (part : PartSpec) (body : Tree) :
    Except PartError CreatedPart × DirectoryPackage :=
  match part.obstacle? p.hasPart with
  | some e => (.error e, p)
  | none =>
    match p.seed part with
    | (.error e, p) => (.error e, p)
    | (.ok (), p) =>
      match p.store part body with
      | (.error e, p) => (.error e, p)
      | (.ok (), p) =>
        match p.metadata.register part with
        | .error e => (.error e, p)
        | .ok (metadata, id) =>
          (.ok ⟨part.name, id⟩, { p with metadata, created := p.created ++ [part.name] })

instance : Package DirectoryPackage where
  hasPart := hasPart
  createPart := createPart

end DirectoryPackage

end PartPatch
