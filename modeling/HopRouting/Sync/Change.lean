import HopRouting.Path

/-!
# Changes of a repository

A change tells how a file of the repository came to be different, by its old and its new path.
To follow it, the file at the old path is forgotten, the file at the new path is taken in, or both;
a path that is absent leaves its part out.
-/

namespace HopRouting

/-- How a file came to be different. -/
inductive ChangeKind where
  | add
  | modify
  | copy
  | delete
  | rename
  deriving DecidableEq

/-- A change of one file, by paths relative to the repository. -/
structure Change where
  kind : ChangeKind
  old : Option Path
  new : Option Path
  deriving DecidableEq

/-- What is done about one path. -/
inductive Operation where
  /-- Takes in the file at the path. -/
  | add (path : Path)
  /-- Forgets the file at the path. -/
  | remove (path : Path)
  deriving DecidableEq

namespace Operation

/-- The path that something is done about. -/
def path : Operation → Path
  | add path => path
  | remove path => path

end Operation

namespace Change

/-- A new file. -/
def added (path : Path) : Change := ⟨.add, none, some path⟩

/-- A file with new content. -/
def modified (path : Path) : Change := ⟨.modify, some path, some path⟩

/-- A file that is gone. -/
def deleted (path : Path) : Change := ⟨.delete, some path, none⟩

/-- What is done to follow the change, in order. -/
def operations (change : Change) : List Operation :=
  let forget := change.old.toList.map Operation.remove
  let takeIn := change.new.toList.map Operation.add
  match change.kind with
  | .add | .modify | .copy => takeIn
  | .delete => forget
  | .rename => forget ++ takeIn

end Change

end HopRouting
