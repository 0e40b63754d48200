import HopRouting.CommandLine.Run
import HopRouting.Text.Duration
import Std.Async.Signal

/-!
# The program

The outer layer of the command line.  It takes in the working copy and the templates from disk as a
file tree, lets the library decide what happens, writes what is to be shown, and saves plans.
-/

namespace HopRouting.Program

/-- What was taken in from disk. -/
structure Loaded where
  tree : FileTree
  /-- The resolved paths that were taken in already. -/
  seen : List String

/-- The resolved form of a path, if it leads anywhere. -/
def resolved? (path : String) : IO (Option String) := do
  match ← (IO.FS.realPath path).toBaseIO with
  | .error _ => pure none
  | .ok real =>
    match ← real.metadata.toBaseIO with
    | .ok _ => pure (some real.toString)
    | .error _ => pure none

/-- Whether a path leads into a circle of links. -/
def leadsInCircle (path : String) : IO Bool := do
  match ← ((← IO.FS.realPath ".") / path).metadata.toBaseIO with
  | .error (.invalidArgument ..) => pure true
  | _ => pure false

/-- Takes in what is at a resolved path, with everything below it and behind its links. -/
partial def takeIn (loaded : Loaded) (path : String) : IO Loaded := do
  if loaded.seen.contains path then return loaded
  let real ← IO.FS.realPath path
  let seen := path :: loaded.seen
  if !(← real.isDir) then
    let content := (← IO.FS.readBinFile path).data.toList
    return ⟨loaded.tree.put (.ofText path) (.file content), seen⟩
  let mut loaded : Loaded := ⟨loaded.tree.put (.ofText path) .directory, seen⟩
  for entry in ← real.readDir do
    let child := entry.path.toString
    match (← entry.path.symlinkMetadata).type with
    | .symlink =>
      if let some target ← resolved? child then
        let tree := loaded.tree.put (.ofText child) (.link (.ofText target))
        loaded ← takeIn ⟨tree, loaded.seen⟩ target
    | .other => pure ()
    | _ => loaded ← takeIn loaded child
  return loaded

/-- Lets a path lead where it leads on disk. -/
def connect (tree : FileTree) (path : Path) (target : String) : FileTree :=
  if (tree.locate path).isOk then tree else tree.put path (.link (.ofText target))

/-- The paths that lead to what a path leads through, the outermost first. -/
def waypoints (path : Path) : List Path :=
  ((List.range path.segments.length).map fun count => Path.ofNames (path.segments.take count)).filter
    (·.bytes ≠ [])

/-- Takes in whether a path leads to a directory, to a file or into a circle of links, but not what
the directory or file holds. -/
def takeInKind (tree : FileTree) (path : Path) : IO FileTree := do
  match ← resolved? path.display with
  | some target =>
    let entry := if ← (← IO.FS.realPath target).isDir then .directory else .file []
    let known := (tree.locate (.ofText target)).isOk
    pure (connect (if known then tree else tree.put (.ofText target) entry) path target)
  | none =>
    let name : Path := ⟨(path.steps.getLast?).getD []⟩
    if ← leadsInCircle path.display then pure (connect tree path name.display) else pure tree

/-- Takes in what a path leads to, if it leads anywhere. -/
def takeInPath (loaded : Loaded) (path : Path) : IO Loaded := do
  let tree ← (waypoints path).foldlM takeInKind loaded.tree
  match ← resolved? path.display with
  | none => pure ⟨← takeInKind tree path, loaded.seen⟩
  | some target =>
    let loaded ← takeIn ⟨tree, loaded.seen⟩ target
    pure { loaded with tree := connect loaded.tree path target }

/-- The files that the arguments speak of, as they are now; of the file in which a plan is to be
saved only where it is. -/
def takeInFiles (arguments : Arguments) : IO FileTree := do
  let here ← IO.FS.realPath "."
  let tree : FileTree := { entries := ∅, workingDirectory := (Path.ofText here.toString).steps }
  let loaded : Loaded := ⟨tree.put (.ofText here.toString) .directory, []⟩
  let loaded ← takeInPath loaded arguments.repositoryDir
  let loaded ← takeInPath loaded arguments.templates
  let output := arguments.output.toList
  (output.flatMap fun path => waypoints path ++ [path]).foldlM takeInKind loaded.tree

/-- Saves to disk the plan that was saved in the tree. -/
def saveOutput (arguments : Arguments) (tree : FileTree) : IO Unit := do
  if let some path := arguments.output then
    if let .ok content := tree.read path then
      IO.FS.writeBinFile path.display ⟨content.toArray⟩

/-- Writes what a finished run has written, and ends with its code. -/
def finish (transcript : Transcript) : IO UInt32 := do
  IO.print transcript.output
  IO.eprint transcript.errors
  pure transcript.code.toUInt32

/-- Waits for a number of tenths of a second, or until the program is interrupted. -/
def pause (interrupted : IO Bool) : Nat → IO Unit
  | 0 => pure ()
  | count + 1 => do
    if ← interrupted then return
    IO.sleep 100
    pause interrupted count

/-- Polls and plans after every interval, until the program is interrupted or has to end. -/
partial def watch (arguments : Arguments) (interrupted : IO Bool) (compiler : Compiler) :
    IO UInt32 := do
  if ← interrupted then
    finish (.finished (Transcript.stoppedLines compiler.metrics) "" (.empty []))
  else
    let attempt := Attempt.ofTick arguments compiler (← takeInFiles arguments)
    IO.print (unlines attempt.lines)
    (← IO.getStdout).flush
    match attempt.failure with
    | none => saveOutput arguments attempt.tree
    | some (.compile cause) => IO.eprint (Transcript.complaint cause)
    | some cause => return ← finish (.failed [] attempt.tree cause)
    pause interrupted (10 * max 1 arguments.interval)
    watch arguments interrupted attempt.compiler

/-- Does what the arguments ask for. -/
def run (arguments : Arguments) : IO UInt32 := do
  let start ← IO.monoNanosNow
  let tree ← takeInFiles arguments
  let elapsed := Text.duration ((← IO.monoNanosNow) - start)
  if !arguments.watch then
    let transcript := arguments.transcript elapsed tree
    if transcript.code = 0 then saveOutput arguments transcript.tree
    finish transcript
  else match arguments.compiler with
    | .error cause => finish (.failed [] tree (.settings cause))
    | .ok compiler =>
      let (report, compiler) := compiler.sync tree
      IO.print (unlines (syncLines elapsed report compiler.monitor.graph))
      let signal ← (← Std.Async.Signal.Waiter.mk .sigint false).wait
      watch arguments (IO.hasFinished signal) compiler.watching

end HopRouting.Program

/-- The command line of the program. -/
def main (arguments : List String) : IO UInt32 :=
  match HopRouting.Arguments.parse? arguments with
  | some arguments => HopRouting.Program.run arguments
  | none => do
    IO.eprintln "usage: [OPTIONS] -t TEMPLATES -s SOURCE -d DESTINATION REPOSITORY_DIR"
    pure 2
