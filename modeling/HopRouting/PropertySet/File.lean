import HopRouting.FileTree.Lookup
import HopRouting.PropertySet.Parser

/-!
# Property files

A property file is a text file that denotes a property set.  Reading one fails if the file cannot
be read as text, or at its first line that is no entry.
-/

namespace HopRouting

/-- Why a property file gives no property set. -/
inductive PropertyFileError where
  | unreadable (path : Path) (cause : FileError)
  | malformed (path : Path) (line : Nat) (fault : PropertySet.LineFault)
  deriving DecidableEq

namespace PropertyFileError

/-- What is told about the error. -/
def message : PropertyFileError → String
  | unreadable path cause => s!"Could not read '{path.display}': {cause.message}"
  | malformed path line fault =>
    s!"Malformed line {line} in '{path.display}': {fault.message}"

end PropertyFileError

namespace PropertySet

/-- The property set that a text denotes, where errors name the path of its file. -/
def ofText (path : Path) (text : String) : Except PropertyFileError PropertySet :=
  (parse text).mapError fun m => .malformed path m.line m.fault

/-- The property set of the file that a path leads to. -/
def ofFile (tree : FileTree) (path : Path) : Except PropertyFileError PropertySet := do
  ofText path (← (tree.readText path).mapError (.unreadable path))

end PropertySet

end HopRouting
