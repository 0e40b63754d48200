import HopRouting.Settings.Basic

/-!
# Layout of the repository

A path of the repository tells what its file declares.  Below the directory of the flow graph, a
file in the directory `a` declares the node `a`, and a file `a/b/n.properties` declares the edge
from `a` to `b` called `n`.  Only ordinary names are looked at, and nothing in the file is.

Files with another extension are skipped; those that overlay others are told apart.
-/

namespace HopRouting

/-- Why a path is skipped. -/
inductive SkipReason where
  /-- The file only adds properties to others. -/
  | overlayFile
  | unsupportedExtension
  /-- The path is deep enough but not below the directory of the flow graph. -/
  | outsideGraph
  /-- The file declares nothing that can be built. -/
  | loadFailed
  deriving DecidableEq

/-- What the file at a path is for. -/
inductive PathRole where
  | node (id : String)
  | edge (source destination name : String)
  | skipped (reason : SkipReason)
  | ignored
  deriving DecidableEq

namespace Settings

/-- Why the path is skipped whose first name is `top`, if it is. -/
def skipReason? (settings : Settings) (path : Path) (top : String) : Option SkipReason :=
  let extension := path.extensionText?.getD ""
  if !settings.propertyExtensions.contains extension then
    if settings.overlayExtensions.contains extension then some .overlayFile
    else some .unsupportedExtension
  else if top ≠ settings.graphDir then some .outsideGraph
  else none

/-- The role that the extension, the top directory and the file name leave to a path. -/
def roleUnless (settings : Settings) (path : Path) (top : String) (role : String → PathRole) :
    PathRole :=
  match settings.skipReason? path top with
  | some reason => .skipped reason
  | none =>
    match path.stem?.bind Name.text? with
    | some stem => role stem
    | none => .ignored

/-- What the file at a path of the repository is for. -/
def roleOf (settings : Settings) (path : Path) : PathRole :=
  match (path.components.filterMap Component.name?).mapM Name.text? with
  | some [top, id, _] => settings.roleUnless path top fun _ => .node id
  | some [top, source, destination, _] =>
    settings.roleUnless path top fun stem => .edge source destination stem
  | _ => .ignored

end Settings

end HopRouting
