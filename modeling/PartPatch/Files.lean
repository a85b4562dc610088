import PartPatch.Text.Basic

/-!
# Files

Files and directories as a finite map from places to what stands there. A path is followed from the
working directory, name by name; every name but the last has to lead to a directory. Files are
written as a whole: a write that fails changes nothing.
-/

namespace PartPatch

set_option autoImplicit false

inductive FileError where
  | notFound
  | alreadyExists
  | notDirectory
  | isDirectory
deriving DecidableEq, Repr

def FileError.message : FileError → String
  | .notFound => "No such file or directory (os error 2)"
  | .alreadyExists => "File exists (os error 17)"
  | .notDirectory => "Not a directory (os error 20)"
  | .isDirectory => "Is a directory (os error 21)"

inductive FileItem where
  | file (content : String)
  | directory
deriving DecidableEq, Repr

/-- The names that lead from the working directory to a place. A place above it begins with `..`,
and one that is given absolutely with `/`. -/
abbrev Place := List String

structure Files where
  items : List (Place × FileItem)
deriving DecidableEq, Repr

namespace FilePath

/-- The names of a path between its slashes, `/` for a slash at the start. -/
def segmentsOf (path : String) : List String :=
  match path.toList with
  | '/' :: rest => "/" :: (Text.split '/' rest).map String.ofList
  | s => (Text.split '/' s).map String.ofList

/-- Whether a name stands for the place itself. -/
def isHere (name : String) : Bool :=
  name == "" || name == "."

/-- The names on the way along a path, those that stand for the place itself left out. -/
def namesOf (path : String) : List String :=
  (segmentsOf path).filter fun name => !isHere name

/-- The last name of the path, unless it leads upwards or there is none. -/
def lastName? (path : String) : Option String :=
  match (namesOf path).getLast? with
  | some ".." | some "/" => none
  | name => name

/-- What follows the last full stop of the last name; a full stop at its start does not count. -/
def extension? (path : String) : Option String :=
  match lastName? path with
  | none => none
  | some name =>
    match (Text.split '.' name.toList).reverse with
    | [] | [_] | [_, []] => none
    | last :: _ => some (String.ofList last)

/-- The path of a name inside the directory at a path. -/
def join (directory name : String) : String :=
  if directory = "" ∨ directory.toList.getLast? = some '/' then directory ++ name
  else directory ++ "/" ++ name

/-- The path of the directory that a path's last name is in. -/
def parent (path : String) : String :=
  match (namesOf path).dropLast with
  | [] => "."
  | names => "/".intercalate names

/-- The path in parentheses, if there is one. -/
def note : Option String → String
  | some path => " (" ++ path ++ ")"
  | none => ""

end FilePath

namespace Place

/-- Whether the place is the working directory, one above it, or the root of all. -/
def isOutermost (place : Place) : Bool :=
  place == ["/"] || place.all (· == "..")

/-- The directory that a place is in. -/
def parent (place : Place) : Place :=
  if place = ["/"] then place
  else if place.isOutermost then place ++ [".."]
  else place.dropLast

/-- The place that a name leads to from a directory. -/
def enter (place : Place) (name : String) : Place :=
  if FilePath.isHere name then place
  else if name = ".." then place.parent
  else if name = "/" then ["/"]
  else place ++ [name]

end Place

namespace Files

def empty : Files := ⟨[]⟩

/-- What stands at a place. The outermost places are directories. -/
def item? (f : Files) (place : Place) : Option FileItem :=
  if place.isOutermost then some .directory else f.items.lookup place

/-- The files with the place given a new item. -/
def put (f : Files) (place : Place) (item : FileItem) : Files :=
  ⟨(place, item) :: f.items.filter fun entry => entry.1 ≠ place⟩

/-- Follows one name from a place, which has to be a directory. -/
def enter (f : Files) (place : Place) (name : String) : Except FileError Place :=
  match f.item? place with
  | none => .error .notFound
  | some (.file _) => .error .notDirectory
  | some .directory => .ok (place.enter name)

/-- The place that a path leads to, whether something stands there or not. -/
def follow (f : Files) (path : String) : Except FileError Place :=
  if path = "" then .error .notFound
  else (FilePath.segmentsOf path).foldlM f.enter []

def find (f : Files) (path : String) : Except FileError FileItem := do
  match f.item? (← f.follow path) with
  | some item => return item
  | none => throw .notFound

def read (f : Files) (path : String) : Except FileError String := do
  match ← f.find path with
  | .file content => return content
  | .directory => throw .isDirectory

def isFile (f : Files) (path : String) : Bool :=
  match f.find path with
  | .ok (.file _) => true
  | _ => false

/-- Writes a file, in place of an earlier one if there is one. Its directory has to exist. -/
def write (f : Files) (path content : String) : Except FileError Files := do
  let place ← f.follow path
  match f.item? place with
  | some .directory => throw .isDirectory
  | _ => return f.put place (.file content)

/-- Makes the directories along the names that lead on from a directory, `made` telling whether one
has been made before. -/
def makeFrom (f : Files) (place : Place) (made : Bool) :
    List String → Except FileError Unit × Files
  | [] => (.ok (), f)
  | name :: names =>
    let next := place.enter name
    match f.item? next with
    | some .directory => makeFrom f next made names
    | none => makeFrom (f.put next .directory) next true names
    -- Only a path that was there before is followed through the file.
    | some (.file _) => (.error (if made ∨ names = [] then .alreadyExists else .notDirectory), f)

/-- Makes all directories on the way along the names. Those that were made before one fails stay. -/
def makeDirectories (f : Files) (names : List String) : Except FileError Unit × Files :=
  f.makeFrom [] false names

/-- The names in a directory with what stands under them, in ascending order. -/
def entries (f : Files) (place : Place) : List (String × FileItem) :=
  (f.items.filterMap fun (p, item) =>
    match p.getLast? with
    | some name => if p.dropLast = place then some (name, item) else none
    | none => none).mergeSort fun a b => decide (a.1 ≤ b.1)

/-- The files with another file added, and the directories that it stands in, where the path leads
to a place for it. -/
def add (f : Files) (path content : String) : Files :=
  match f.makeDirectories (FilePath.namesOf path).dropLast with
  | (.error _, made) => made
  | (.ok (), made) =>
    match made.write path content with
    | .ok written => written
    | .error _ => made

/-- The files with a directory added, and those that it stands in. -/
def addDirectory (f : Files) (path : String) : Files :=
  (f.makeDirectories (FilePath.namesOf path)).2

/-- The contents of all files by their paths, in ascending order. -/
def contents (f : Files) : List (String × String) :=
  (f.items.filterMap fun (place, item) =>
    match item with
    | .file content => some ("/".intercalate place, content)
    | .directory => none).mergeSort fun a b => decide (a.1 ≤ b.1)

end Files

end PartPatch
