import HopRouting.FileTree.Lookup
import HopRouting.Sync.Change

/-!
# Sources of changes

**Directories.** A directory source compares a working copy with what it looked like at the last
poll: which regular files there were, under which paths, and what they held.  Files that are gone
are told first, then new and different ones, each group in the order of paths.  What is called
`.git` is never looked at.  A poll fails if the directory is missing or something in it cannot be
opened, and a poll that fails is not remembered.

**Queues.** A queue source hands out the batches it was given, one per poll, and nothing once it is
empty.
-/

namespace HopRouting

/-- Why a poll fails. -/
inductive SourceError where
  | unavailable (repository : String)
  | unreadable (reason : String)
  deriving DecidableEq

namespace SourceError

/-- What is told about the error. -/
def message : SourceError → String
  | unavailable repository => s!"Repository at '{repository}' is unavailable"
  | unreadable reason => s!"Failed to read repository changes: {reason}"

end SourceError

/-- The regular files below a directory with their content. -/
abbrev Scan := Std.ExtTreeMap Location (List UInt8)

namespace Scan

/-- The name of what is never looked at. -/
def hiddenName : Name := .ofText ".git"

/-- The file of a directory that a scan takes up. -/
def visibleFile? (names : Location) (entry : Entry) : Option (Location × List UInt8) :=
  match entry with
  | .file content => if hiddenName ∈ names then none else some (names, content)
  | _ => none

/-- Why a file or directory below `root` that has to be opened cannot be: the path that leads there
through `root` may be too long. -/
def fault? (root : Path) (names : Location) (entry : Entry) : Option SourceError :=
  if hiddenName ∈ names then none
  else
    let path := root.join (.ofNames names)
    match path.check, entry with
    | .error cause, .file _ =>
      some (.unreadable (path.display ++ ": " ++ cause.message))
    | .error cause, .directory =>
      some (.unreadable ("IO error for operation on " ++ path.display ++ ": " ++ cause.message))
    | _, _ => none

/-- The regular files below the directory `root`. -/
def ofTree (tree : FileTree) (root : Path) : Except SourceError Scan :=
  match tree.locate root with
  | .error _ => .error (.unavailable root.display)
  | .ok location =>
    if !tree.isDirectoryAt location then .error (.unavailable root.display)
    else if root.fileName? = some hiddenName then .ok ∅
    else
      let entries := tree.below location
      match entries.findSome? fun (names, entry) => fault? root names entry with
      | some cause => .error cause
      | none => .ok (.ofList (entries.filterMap fun (names, entry) => visibleFile? names entry))

/-- The changes that lead from one scan to another. -/
def changes (before after : Scan) : List Change :=
  let deleted := before.keys.filter fun names => !after.contains names
  let updated := after.toList.filterMap fun (names, content) =>
    match before[names]? with
    | none => some (Change.added (.ofNames names))
    | some old => if old = content then none else some (Change.modified (.ofNames names))
  deleted.map (fun names => Change.deleted (.ofNames names)) ++ updated

end Scan

/-- What a poll answers. -/
abbrev PollResult := Except SourceError (List Change)

/-- A working copy and what it looked like at the last successful poll. -/
structure DirectorySource where
  root : Path
  seen : Scan

namespace DirectorySource

/-- The source of a working copy that has not been looked at yet. -/
def ofRoot (root : Path) : DirectorySource := ⟨root, ∅⟩

/-- The changes since the last successful poll. -/
def poll (source : DirectorySource) (tree : FileTree) : PollResult × DirectorySource :=
  match Scan.ofTree tree source.root with
  | .ok scan => (.ok (source.seen.changes scan), { source with seen := scan })
  | .error cause => (.error cause, source)

end DirectorySource

/-- Batches that are waiting to be handed out, the next one first. -/
structure QueueSource where
  batches : List PollResult

namespace QueueSource

/-- The queue without batches. -/
def empty : QueueSource := ⟨[]⟩

/-- Adds a batch, or a failure, behind the others. -/
def push (source : QueueSource) (batch : PollResult) : QueueSource :=
  ⟨source.batches ++ [batch]⟩

/-- Hands out the next batch. -/
def poll (source : QueueSource) : PollResult × QueueSource :=
  match source.batches with
  | [] => (.ok [], source)
  | batch :: rest => (batch, ⟨rest⟩)

/-- The number of batches that are waiting. -/
def pending (source : QueueSource) : Nat := source.batches.length

end QueueSource

/-- Where changes come from. -/
inductive Source where
  | directory (source : DirectorySource)
  | queue (source : QueueSource)

namespace Source

/-- The changes that are to be followed next. -/
def poll (source : Source) (tree : FileTree) : PollResult × Source :=
  match source with
  | directory source => (source.poll tree).map id directory
  | queue source => source.poll.map id queue

/-- Adds a batch, or a failure, to a queue; directories take none. -/
def push (source : Source) (batch : PollResult) : Source :=
  match source with
  | queue source => queue (source.push batch)
  | source => source

/-- The number of batches that are waiting. -/
def pending : Source → Nat
  | queue source => source.pending
  | directory _ => 0

end Source

end HopRouting
