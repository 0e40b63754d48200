import HopRouting.Sync.Apply
import HopRouting.Sync.Overlay
import HopRouting.Sync.Source

/-!
# The monitor

The monitor keeps a graph in step with a repository.  It polls its source on demand, and from a
loop that ticks when it is started and then once per interval.  A tick polls only while the monitor
is active.  There is at most one loop; stopping ends it, and a later start begins a new one.

Time is told to the monitor, in milliseconds: `advance` lets it pass and runs the ticks that fall
due on the way.
-/

namespace HopRouting

/-- A poll loop. -/
structure PollLoop where
  /-- Milliseconds until the next tick. -/
  wait : Nat
  deriving DecidableEq

/-- A graph and what keeps it in step with a repository. -/
structure Monitor where
  settings : Settings
  registry : Registry
  loader : OverlayLoader
  /-- The templates, which may be files. -/
  catalog : FileTree → Catalog
  source : Source
  graph : Graph := .empty
  active : Bool := false
  pollLoop : Option PollLoop := none

/-- What can happen to a monitor between polls. -/
inductive MonitorEvent where
  | start
  | stop
  | setActive (active : Bool)
  | push (batch : PollResult)
  | tick

namespace Monitor

/-- What the monitor builds elements with, as the files are now. -/
def workshop (monitor : Monitor) (tree : FileTree) : Workshop where
  settings := monitor.settings
  registry := monitor.registry
  catalog := monitor.catalog tree
  load := monitor.loader.load tree

/-- Follows a batch of changes. -/
def process (monitor : Monitor) (tree : FileTree) (changes : List Change) : Report × Monitor :=
  let (report, graph) := (monitor.workshop tree).process monitor.graph changes
  (report, { monitor with graph })

/-- Polls the source and follows what it tells; a poll that fails changes nothing. -/
def poll (monitor : Monitor) (tree : FileTree) : Report × Monitor :=
  match monitor.source.poll tree with
  | (.ok changes, source) => { monitor with source }.process tree changes
  | (.error _, source) => (.empty, { monitor with source })

/-- Whether the poll loop runs. -/
def isRunning (monitor : Monitor) : Bool :=
  monitor.pollLoop.isSome

/-- Starts the poll loop unless it runs; its first tick is due at once. -/
def start (monitor : Monitor) : Monitor :=
  if monitor.isRunning then monitor else { monitor with pollLoop := some ⟨0⟩ }

/-- Stops the poll loop. -/
def stop (monitor : Monitor) : Monitor :=
  { monitor with pollLoop := none }

/-- Lets ticks poll or not. -/
def setActive (monitor : Monitor) (active : Bool) : Monitor :=
  { monitor with active }

/-- Adds a batch, or a failure, to the source. -/
def push (monitor : Monitor) (batch : PollResult) : Monitor :=
  { monitor with source := monitor.source.push batch }

/-- A tick of the poll loop. -/
def tick (monitor : Monitor) (tree : FileTree) : Monitor :=
  if monitor.isRunning && monitor.active then (monitor.poll tree).2 else monitor

/-- Lets an event happen. -/
def handle (monitor : Monitor) (tree : FileTree) : MonitorEvent → Monitor
  | .start => monitor.start
  | .stop => monitor.stop
  | .setActive active => monitor.setActive active
  | .push batch => monitor.push batch
  | .tick => monitor.tick tree

/-- The time between two ticks, in milliseconds. -/
def period (monitor : Monitor) : Nat :=
  monitor.settings.pollingSeconds * 1000

/-- The number of ticks that fall due while time passes, and the wait that is left. -/
def ticksWithin (period wait milliseconds : Nat) : Nat × Nat :=
  if milliseconds < wait then (0, wait - milliseconds)
  else
    let late := milliseconds - wait
    (late / period + 1, period - late % period)

/-- Lets a number of ticks happen. -/
def tickTimes (monitor : Monitor) (tree : FileTree) : Nat → Monitor
  | 0 => monitor
  | count + 1 => (monitor.tick tree).tickTimes tree count

/-- Lets time pass. -/
def advance (monitor : Monitor) (tree : FileTree) (milliseconds : Nat) : Monitor :=
  match monitor.pollLoop with
  | none => monitor
  | some pollLoop =>
    let (ticks, wait) := ticksWithin monitor.period pollLoop.wait milliseconds
    { monitor.tickTimes tree ticks with pollLoop := some ⟨wait⟩ }

end Monitor

end HopRouting
