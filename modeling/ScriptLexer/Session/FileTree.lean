import ScriptLexer.Bytes
import ScriptLexer.Session.Fault

namespace ScriptLexer

/-- Names from the working directory down. -/
abbrev Location := List String

namespace Location

/-- Where a name leads from a place: nowhere else, up, or down. -/
def enter? (place : Location) (name : String) : Option Location :=
  if name = "" ∨ name = "." then some place
  else if name = ".." then
    if place = [] then none else some place.dropLast
  else some (place ++ [name])

/-- The places that names lead through, from the first place to the last one. The route ends where
it would leave the working directory. -/
def route (place : Location) : List String → List Location
  | [] => [place]
  | name :: names =>
    match place.enter? name with
    | none => [place]
    | some next => place :: route next names

end Location

/-- The files below the working directory. What lies above it is not known. -/
structure FileTree where
  directories : List Location := []
  files : List (Location × Bytes) := []
deriving DecidableEq, Repr

namespace FileTree

inductive Entry where
  | directory
  | file (bytes : Bytes)
deriving DecidableEq, Repr

/-- The names in a path. The empty path and a path from the root name nothing that is known. -/
def namesOf? (path : String) : Option (List String) :=
  match path.splitOn "/" with
  | "" :: _ => none
  | names => some names

/-- Makes every place that the names lead through a directory, also one that the route leaves
again by `..`, since a path has to exist to be gone through. -/
def makeWay (tree : FileTree) (names : List String) : FileTree :=
  { tree with directories := Location.route [] names ++ tree.directories }

def addDirectory (tree : FileTree) (path : String) : FileTree :=
  match namesOf? path with
  | none => tree
  | some names => tree.makeWay names

/-- Writes a file, with the directories on the way to it. It hides one written before at the same
place. -/
def addFile (tree : FileTree) (path : String) (bytes : Bytes) : FileTree :=
  match namesOf? path with
  | none => tree
  | some names =>
    let reached := tree.makeWay names.dropLast
    match names.foldlM Location.enter? [] with
    | none => reached
    | some place => { reached with files := (place, bytes) :: reached.files }

/-- What is at a place. The working directory is always there. -/
def entry? (tree : FileTree) (place : Location) : Option Entry :=
  match tree.files.lookup place with
  | some bytes => some (.file bytes)
  | none => if place = [] ∨ place ∈ tree.directories then some .directory else none

/-- Follows names from a place. Only a directory can be gone through, also by `.` and `..`. -/
def walk (tree : FileTree) (place : Location) : List String → Except Fault Entry
  | [] =>
    match tree.entry? place with
    | some found => .ok found
    | none => .error .notFound
  | name :: names =>
    match tree.entry? place with
    | none => .error .notFound
    | some (.file _) => .error .notADirectory
    | some .directory =>
      match place.enter? name with
      | none => .error .notFound
      | some next => tree.walk next names

/-- The bytes of the file that a path leads to. -/
def read (tree : FileTree) (path : String) : Except Fault Bytes :=
  if path.toList.contains '\x00' then .error .nulInPath
  else
    match namesOf? path with
    | none => .error .notFound
    | some names =>
      match tree.walk [] names with
      | .ok (.file bytes) => .ok bytes
      | .ok .directory => .error .isADirectory
      | .error fault => .error fault

end FileTree

end ScriptLexer
