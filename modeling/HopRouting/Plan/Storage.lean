import HopRouting.Codec.Basic
import HopRouting.FileTree.Edit
import HopRouting.Plan.Dag

/-!
# Storing dependency graphs

A dependency graph is saved as one file and loaded from it.  Bytes that begin with no dependency
graph are refused.
-/

namespace HopRouting

/-- Why a dependency graph cannot be saved or loaded. -/
inductive StorageError where
  | cannotCreate (path : Path) (cause : FileError)
  | cannotOpen (path : Path) (cause : FileError)
  | cannotRead (path : Path) (cause : FileError)
  | malformed
  deriving DecidableEq

namespace StorageError

/-- What is told about the error. -/
def message : StorageError → String
  | cannotCreate path cause =>
    s!"Plan error: Could not create file '{path.display}': {cause.message}"
  | cannotOpen path cause => s!"Plan error: Could not open file '{path.display}': {cause.message}"
  | cannotRead path cause =>
    s!"Plan error: Could not read from file '{path.display}': {cause.message}"
  | malformed => "Plan error: Deserialization failed"

/-- The error of a file that could not be opened or read.  A directory can be opened. -/
def ofReading (path : Path) (cause : FileError) : StorageError :=
  if cause = .isADirectory then cannotRead path cause else cannotOpen path cause

end StorageError

namespace Dag

variable {α : Type}

/-- The dependency graph that the bytes begin with. -/
def ofBytes (codec : Codec (Dag α)) (bytes : List UInt8) : Except StorageError (Dag α) :=
  match codec.decode bytes with
  | some (dag, _) => .ok dag
  | none => .error .malformed

/-- The tree after the dependency graph was saved to the path. -/
def save (codec : Codec (Dag α)) (dag : Dag α) (tree : FileTree) (path : Path) :
    Except StorageError FileTree :=
  (tree.write path (codec.encode dag)).mapError (.cannotCreate path)

/-- The dependency graph that was saved to the path. -/
def load (codec : Codec (Dag α)) (tree : FileTree) (path : Path) : Except StorageError (Dag α) := do
  ofBytes codec (← (tree.read path).mapError (.ofReading path))

end Dag

end HopRouting
