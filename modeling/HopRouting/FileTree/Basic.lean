import Std.Data.ExtTreeMap
import HopRouting.Path

/-!
# File trees

A file tree is what a program finds on disk: directories, files with their bytes, and symbolic
links.  It is kept flat, as a map from locations to entries, where a location is the list of names
that leads down from the root directory.  The map is ordered by location, name by name, so the
files below a directory are met in that order.

Relative paths are read in the working directory of the tree.
-/

namespace HopRouting

/-- The names that lead from the root directory down to an entry. -/
abbrev Location := List Name

/-- Locations are ordered name by name, and names byte by byte. -/
instance : Std.TransCmp (compare : Location → Location → Ordering) := inferInstance

/-- What a location of a file tree holds. -/
inductive Entry where
  | directory
  | file (content : List UInt8)
  /-- A symbolic link, read in the directory that holds it. -/
  | link (target : Path)
  deriving DecidableEq, Inhabited

/-- The entries below the root directory, and the directory that relative paths are read in. -/
structure FileTree where
  entries : Std.ExtTreeMap Location Entry
  workingDirectory : Location

/-- Why a file or directory cannot be used. -/
inductive FileError where
  | notFound
  | notADirectory
  | isADirectory
  | nameTooLong
  | tooManyLinks
  | nulInPath
  | notText
  deriving DecidableEq

namespace FileError

/-- The system's wording of the error. -/
def message : FileError → String
  | notFound => "No such file or directory (os error 2)"
  | notADirectory => "Not a directory (os error 20)"
  | isADirectory => "Is a directory (os error 21)"
  | nameTooLong => "File name too long (os error 36)"
  | tooManyLinks => "Too many levels of symbolic links (os error 40)"
  | nulInPath => "file name contained an unexpected NUL byte"
  | notText => "stream did not contain valid UTF-8"

end FileError

namespace FileTree

/-- The tree with the entry at the location. -/
def insert (tree : FileTree) (location : Location) (entry : Entry) : FileTree :=
  { tree with entries := tree.entries.insert location entry }

/-- The tree of an empty working directory just below the root directory. -/
def empty (name : Name) : FileTree :=
  FileTree.insert ⟨∅, [name]⟩ [name] .directory

/-- The entry at a location; the root directory always exists. -/
def entry? (tree : FileTree) (location : Location) : Option Entry :=
  if location = [] then some .directory else tree.entries[location]?

/-- Whether a directory is at the location. -/
def isDirectoryAt (tree : FileTree) (location : Location) : Bool :=
  tree.entry? location = some .directory

/-- The names of the entries that the directory at a location holds, in increasing order. -/
def namesIn (tree : FileTree) (location : Location) : List Name :=
  tree.entries.keys.filterMap fun key =>
    match location.isPrefixOf? key with
    | some [name] => some name
    | _ => none

/-- The entries below a location, each with the names that lead there from the location, in
increasing order. -/
def below (tree : FileTree) (location : Location) : List (Location × Entry) :=
  tree.entries.toList.filterMap fun (key, entry) =>
    match location.isPrefixOf? key with
    | some [] => none
    | some names => some (names, entry)
    | none => none

end FileTree

end HopRouting
