import HopRouting.FileTree.Basic

/-!
# Looking up paths

**Input.** A path is walked from the working directory, or from the root directory if it is
absolute, segment by segment: `.` asks for a directory, `..` climbs, a name enters an entry, and
a slash at the end asks for a directory once more.

**Links.** A walk strides over directories until it meets a symbolic link, and goes on with the
target of the link in its place.  It follows at most forty links, so a circle of links is an
error.

**Results.** `read` and `readText` give the content of a file, `list` the names in a directory.
-/

namespace HopRouting

namespace Path

/-- The segments of a path that are not empty. -/
def steps (path : Path) : List Name :=
  path.segments.filter (· ≠ [])

/-- Whether the path asks for a directory by ending in a slash. -/
def endsInSlash (path : Path) : Bool :=
  path.bytes.getLast? = some Name.slash

/-- The steps of a path, where a slash at the end asks for a directory. -/
def walkSteps (path : Path) : List Name :=
  if path.endsInSlash then path.steps ++ [[Name.dot]] else path.steps

/-- Where the walk of a path begins if it is read in the directory `base`. -/
def start (path : Path) (base : Location) : Location :=
  if path.isAbsolute then [] else base

/-- The longest path that can be used, in bytes. -/
def lengthLimit : Nat := 4095

/-- A path that can be used has no NUL byte, is not empty and not too long. -/
def check (path : Path) : Except FileError Unit :=
  if path.bytes.contains 0 then .error .nulInPath
  else if path.bytes = [] then .error .notFound
  else if path.bytes.length > lengthLimit then .error .nameTooLong
  else .ok ()

end Path

namespace Name

/-- The longest name of a directory entry, in bytes. -/
def lengthLimit : Nat := 255

end Name

namespace FileTree

/-- The number of symbolic links that one walk may follow. -/
def linkLimit : Nat := 40

/-- What a walk reaches before it has to follow a link. -/
inductive Stride where
  /-- The end of the walk. -/
  | arrived (location : Location)
  /-- A link in a directory, and the steps that are left after it. -/
  | atLink (directory : Location) (name : Name) (target : Path) (rest : List Name)

/-- Walks from a location until the steps end or a link is met. -/
def stride (tree : FileTree) (location : Location) : List Name → Except FileError Stride
  | [] => .ok (.arrived location)
  | step :: rest =>
    if !tree.isDirectoryAt location then .error .notADirectory
    else match Component.ofSegment? step with
      | some .up => tree.stride location.dropLast rest
      | some (.name name) =>
        if name.length > Name.lengthLimit then .error .nameTooLong
        else match tree.entry? (location ++ [name]) with
          | none => .error .notFound
          | some (.link target) => .ok (.atLink location name target rest)
          | some _ => tree.stride (location ++ [name]) rest
      | _ => tree.stride location rest

/-- The location that `steps` lead to, following at most `links` symbolic links; a link met by the
last step is followed only if `followLast`. -/
def walk (tree : FileTree) (followLast : Bool) (links : Nat) (location : Location)
    (steps : List Name) : Except FileError Location := do
  match ← tree.stride location steps with
  | .arrived location => pure location
  | .atLink directory name target rest =>
    if rest = [] && !followLast then pure (directory ++ [name])
    else match links with
      | 0 => throw .tooManyLinks
      | links + 1 =>
        tree.walk followLast links (target.start directory) (target.walkSteps ++ rest)

/-- The location a path leads to. -/
def locate (tree : FileTree) (path : Path) : Except FileError Location := do
  path.check
  tree.walk true linkLimit (path.start tree.workingDirectory) path.walkSteps

/-- The location of the entry a path names, which may be a link. -/
def locateEntry (tree : FileTree) (path : Path) : Except FileError Location := do
  path.check
  tree.walk false linkLimit (path.start tree.workingDirectory) path.walkSteps

/-- The content of the file a path leads to. -/
def read (tree : FileTree) (path : Path) : Except FileError (List UInt8) := do
  match tree.entry? (← tree.locate path) with
  | some (.file content) => .ok content
  | _ => .error .isADirectory

/-- The content of the text file a path leads to. -/
def readText (tree : FileTree) (path : Path) : Except FileError String := do
  match Text.text? (← tree.read path) with
  | some text => .ok text
  | none => .error .notText

/-- The names in the directory a path leads to, in increasing order. -/
def list (tree : FileTree) (path : Path) : Except FileError (List Name) := do
  let location ← tree.locate path
  if tree.isDirectoryAt location then .ok (tree.namesIn location)
  else .error .notADirectory

/-- Whether the path leads to a file. -/
def isFile (tree : FileTree) (path : Path) : Bool :=
  (tree.read path).isOk

end FileTree

end HopRouting
