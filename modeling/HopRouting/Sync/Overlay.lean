import HopRouting.PropertySet.File

/-!
# Overlays

A file that declares something is read together with the overlays of its directories.  On the way
from the root directory down to the directory of the file, every overlay file adds its properties;
nearer directories override farther ones, within a directory later names override earlier ones,
and the file itself overrides them all.  A file that does not lie below the root directory only
has the overlays of its own directory.
-/

namespace HopRouting

/-- How files are read together with their overlays. -/
structure OverlayLoader where
  /-- The uppermost directory whose overlays count. -/
  root : Path
  propertyExtensions : List String
  overlayExtensions : List String
  deriving DecidableEq

namespace OverlayLoader

/-- The directories from `base` down along the components. -/
def descend (base : Path) : List Component → List Path
  | [] => [base]
  | component :: rest => base :: descend (base.join ⟨component.bytes⟩) rest

/-- The directories whose overlays count for files in `directory`, the farthest first. -/
def directories (loader : OverlayLoader) (directory : Path) : List Path :=
  match directory.below? loader.root with
  | some components => descend loader.root components
  | none => [directory]

/-- The overlay files in a directory, by name; a directory that is not there has none. -/
def overlaysIn (loader : OverlayLoader) (tree : FileTree) (directory : Path) :
    Except PropertyFileError (List Path) :=
  match tree.list directory with
  | .ok names =>
    .ok <| (names.map directory.child).filter fun path =>
      tree.isFile path && path.hasExtension loader.overlayExtensions
  | .error .notFound => .ok []
  | .error cause => .error (.unreadable directory cause)

/-- The overlay files in the directories, in the order in which they are applied. -/
def overlaysOf (loader : OverlayLoader) (tree : FileTree) (directories : List Path) :
    Except PropertyFileError (List PropertySet) := do
  let sets ← directories.mapM fun directory => do
    (← loader.overlaysIn tree directory).mapM (PropertySet.ofFile tree)
  pure sets.flatten

/-- The properties of the file at a path, with those of its overlays. -/
def load (loader : OverlayLoader) (tree : FileTree) (path : Path) :
    Except PropertyFileError PropertySet := do
  let own ← PropertySet.ofFile tree path
  if !path.hasExtension loader.propertyExtensions then return own
  let overlays ← loader.overlaysOf tree (path.parent?.toList.flatMap loader.directories)
  pure ((overlays.foldl PropertySet.merge ∅).merge own)

end OverlayLoader

end HopRouting
