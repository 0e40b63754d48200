import HopRouting.FileTree.Lookup

/-!
# Changing file trees

`write` replaces or creates one file, as a program does that opens a path for writing: the
directory must exist, and a link is followed to where the file is or would be.  The other
operations build and rearrange trees: `put` makes missing directories on the way, `remove` takes
an entry away with everything below it, `move` puts an entry under another path.
-/

namespace HopRouting.FileTree

/-- Where a file opened for writing at `steps` from the location is or will be.  All links on the
way count, those that directories are reached through and those at the end alike, and at most
`links` are followed. -/
def writeLocation (tree : FileTree) (links : Nat) (location : Location) (steps : List Name)
    (endsInSlash : Bool) : Except FileError Location := do
  match ← tree.stride location steps.dropLast with
  | .atLink directory _ target rest =>
    match links with
    | 0 => throw .tooManyLinks
    | links + 1 =>
      tree.writeLocation links (target.start directory)
        (target.walkSteps ++ rest ++ steps.getLast?.toList) endsInSlash
  | .arrived directory =>
    if !tree.isDirectoryAt directory then throw .notADirectory
    match steps.getLast?.bind Component.ofSegment? with
    | some (.name name) =>
      if endsInSlash then throw .isADirectory
      if name.length > Name.lengthLimit then throw .nameTooLong
      match tree.entry? (directory ++ [name]) with
      | none => pure (directory ++ [name])
      | some (.file _) => pure (directory ++ [name])
      | some .directory => throw .isADirectory
      | some (.link target) =>
        match links with
        | 0 => throw .tooManyLinks
        | links + 1 =>
          tree.writeLocation links (target.start directory) target.steps target.endsInSlash
    | _ => throw .isADirectory

/-- The tree after a program has written `content` to `path`. -/
def write (tree : FileTree) (path : Path) (content : List UInt8) : Except FileError FileTree := do
  path.check
  let location ← tree.writeLocation linkLimit (path.start tree.workingDirectory) path.steps
    path.endsInSlash
  pure (tree.insert location (.file content))

/-- The tree in which `steps` lead from the location to a directory, and where that is; what is
missing on the way is made. -/
def makeDirectories (tree : FileTree) (location : Location) : List Name → FileTree × Location
  | [] => (tree, location)
  | step :: rest =>
    match tree.walk true linkLimit location [step] with
    | .ok next => tree.makeDirectories next rest
    | .error _ =>
      (tree.insert (location ++ [step]) .directory).makeDirectories (location ++ [step]) rest

/-- The tree with the entry at the path, in directories that are made where they are missing. -/
def put (tree : FileTree) (path : Path) (entry : Entry) : FileTree :=
  let base := path.start tree.workingDirectory
  match entry with
  | .directory => (tree.makeDirectories base path.steps).1
  | .file content =>
    let (tree, _) := tree.makeDirectories base path.steps.dropLast
    (tree.write path content).toOption.getD tree
  | .link target =>
    let (tree, directory) := tree.makeDirectories base path.steps.dropLast
    tree.insert (directory ++ path.steps.getLast?.toList) (.link target)

/-- The tree without the location and everything below it. -/
def eraseBelow (tree : FileTree) (location : Location) : FileTree :=
  { tree with entries := tree.entries.filter fun key _ => !location.isPrefixOf key }

/-- The tree without the entry at the path; a directory goes with everything in it, and a link goes
without its target. -/
def remove (tree : FileTree) (path : Path) : FileTree :=
  match tree.locateEntry path with
  | .ok location => tree.eraseBelow location
  | .error _ => tree

/-- The tree with the entry at `path`, and everything below it, moved to `target`. -/
def move (tree : FileTree) (path target : Path) : FileTree :=
  let (tree, directory) :=
    tree.makeDirectories (target.start tree.workingDirectory) target.steps.dropLast
  match tree.locateEntry path with
  | .ok source =>
    let destination := directory ++ target.steps.getLast?.toList
    let moved := (tree.entry? source).toList.map (([] : Location), ·) ++ tree.below source
    moved.foldl (fun tree (names, entry) => tree.insert (destination ++ names) entry)
      ((tree.eraseBelow source).eraseBelow destination)
  | .error _ => tree

end HopRouting.FileTree
