import HopRouting.CommandLine.Arguments
import HopRouting.Compiler.Basic
import HopRouting.Plan.Codec
import HopRouting.Plan.Storage

/-!
# Runs of the program

**Start.** A run builds a compiler from its arguments, polls the working copy once, and reports the
graph it has found.

**Planning.** Then it plans the flow and shows the plan, and saves it if that is asked for.  A run
that does not watch ends here.  A run that watches polls and plans again after every interval: it
reports a flow that cannot be planned, and ends only when a plan cannot be saved or when it is
interrupted.

**Results.** `transcript` is everything that a run leaves behind.
-/

namespace HopRouting

/-- Why a run fails. -/
inductive RunError where
  | settings (cause : SettingsError)
  | compile (cause : CompileError)
  | storage (cause : StorageError)
  deriving DecidableEq

namespace RunError

/-- What is told about the error. -/
def message : RunError → String
  | settings cause => cause.message
  | compile cause => cause.message
  | storage cause => cause.message

end RunError

namespace Arguments

/-- The settings that the arguments amount to. -/
def settings (arguments : Arguments) : Settings :=
  let uri := "file://" ++ arguments.repositoryDir.display
  { repositoryUri := some (arguments.repositoryUri.getD uri)
    repositoryDir := arguments.repositoryDir
    graphDir := arguments.graphDir : Settings }.withPollingMilliseconds (1000 * arguments.interval)

/-- The flow that is to be planned. -/
def flow (arguments : Arguments) : Flow where
  group := arguments.group
  name := arguments.name
  source := arguments.source
  destination := arguments.destination
  inputFormat := arguments.inputFormat
  outputFormat := arguments.outputFormat

/-- The compiler that plans it. -/
def compiler (arguments : Arguments) : Except SettingsError Compiler :=
  let parts : CompilerParts :=
    { settings := arguments.settings
      catalog := some fun tree => .ofDirectory tree arguments.templates }
  parts.build.map (·.1)

end Arguments

section Shown

/-- What is shown after the first poll, which took the time that `elapsed` tells. -/
def syncLines (elapsed : String) (report : Report) (graph : Graph) : List String :=
  [s!"Synced flow graph in {elapsed}: {report.applied} applied, {report.skipped} skipped, " ++
      s!"{report.ignored} ignored",
    s!"Flow graph: {graph.nodeCount} node(s), {graph.edgeCount} edge(s)"]

/-- A number in at least two columns. -/
def inTwoColumns (n : Nat) : String :=
  if n < 10 then " " ++ n.repr else n.repr

/-- What is shown for the hop at a position of a plan. -/
def hopLines (index : Nat) (hop : PlannedJob) : List String :=
  let capabilities := ", ".intercalate (hop.executor.capabilities.map Capability.render)
  [inTwoColumns index ++ ": " ++ hop.job.uri,
    "    template: " ++ hop.job.templateUri,
    "    executor: " ++ hop.executor.className ++ " [" ++ capabilities ++ "]"]

/-- What is shown for a plan. -/
def planLines (plan : Plan) : List String :=
  ["", s!"--- Physical Plan ({plan.size} hop(s)) ---"] ++
    (plan.values.mapIdx hopLines).flatten ++ ["-----------------------------"]

/-- Lines as they are written. -/
def unlines (lines : List String) : String :=
  String.join (lines.map (· ++ "\n"))

end Shown

section Actions

/-- Polls the working copy. -/
def Compiler.sync (compiler : Compiler) (tree : FileTree) : Report × Compiler :=
  let (report, monitor) := compiler.monitor.poll tree
  (report, { compiler with monitor })

/-- The compiler of a run that watches, which polls at every tick. -/
def Compiler.watching (compiler : Compiler) : Compiler :=
  { compiler with monitor := (compiler.monitor.setActive true).start }

/-- What planning a flow once has led to. -/
structure Attempt where
  compiler : Compiler
  tree : FileTree
  lines : List String
  failure : Option RunError

namespace Attempt

/-- Saves a plan if the arguments ask for it. -/
def save (arguments : Arguments) (compiler : Compiler) (tree : FileTree) (plan : Plan) : Attempt :=
  let attempt : Attempt := { compiler, tree, lines := planLines plan, failure := none }
  match arguments.output with
  | none => attempt
  | some path =>
    match Dag.save Plan.codec plan tree path with
    | .ok tree => { attempt with tree }
    | .error cause => { attempt with failure := some (.storage cause) }

/-- Plans the flow of the arguments once. -/
def ofArguments (arguments : Arguments) (compiler : Compiler) (tree : FileTree) : Attempt :=
  match compiler.compile tree (.flow arguments.flow) with
  | (.ok plan, compiler) => save arguments compiler tree plan
  | (.error cause, compiler) =>
    { compiler, tree, lines := [], failure := some (.compile cause) }

/-- Polls, and plans the flow of the arguments once. -/
def ofTick (arguments : Arguments) (compiler : Compiler) (tree : FileTree) : Attempt :=
  ofArguments arguments { compiler with monitor := compiler.monitor.tick tree } tree

end Attempt

/-- What a run has written when it has ended, and the files it leaves. -/
structure Transcript where
  code : Nat
  output : String
  errors : String
  tree : FileTree

namespace Transcript

/-- The end of a run that fails after it has shown some lines. -/
def failed (lines : List String) (tree : FileTree) (cause : RunError) : Transcript where
  code := 1
  output := unlines lines
  errors := s!"\nError: {cause.message}\n"
  tree := tree

/-- The end of a run that succeeds. -/
def finished (lines : List String) (errors : String) (tree : FileTree) : Transcript where
  code := 0
  output := unlines lines
  errors := errors
  tree := tree

/-- What is shown last when the plan was saved. -/
def savedLines (arguments : Arguments) : List String :=
  arguments.output.toList.map fun path => "Plan written to " ++ path.display

/-- What is shown last when a run that watches is interrupted. -/
def stoppedLines (metrics : Metrics) : List String :=
  [s!"Stopped. {metrics.succeeded} compilation(s) succeeded, {metrics.failed} failed"]

/-- What is told about a flow that could not be planned by a run that goes on. -/
def complaint (cause : CompileError) : String :=
  s!"Compilation failed: {cause.message}\n"

/-- The end of a run that does not watch, after its only attempt. -/
def ofAttempt (arguments : Arguments) (lines : List String) (attempt : Attempt) : Transcript :=
  match attempt.failure with
  | none => finished (lines ++ attempt.lines ++ savedLines arguments) "" attempt.tree
  | some cause => failed (lines ++ attempt.lines) attempt.tree cause

/-- The end of a run that watches and is interrupted after its first attempt. -/
def ofInterrupted (lines : List String) (attempt : Attempt) : Transcript :=
  let lines := lines ++ attempt.lines
  let stopped := lines ++ stoppedLines attempt.compiler.metrics
  match attempt.failure with
  | none => finished stopped "" attempt.tree
  | some (.compile cause) => finished stopped (complaint cause) attempt.tree
  | some cause => failed lines attempt.tree cause

end Transcript

/-- What a run leaves behind; one that watches is interrupted after it has planned the flow. -/
def Arguments.transcript (arguments : Arguments) (elapsed : String) (tree : FileTree) :
    Transcript :=
  match arguments.compiler with
  | .error cause => .failed [] tree (.settings cause)
  | .ok compiler =>
    let (report, compiler) := compiler.sync tree
    let lines := syncLines elapsed report compiler.monitor.graph
    if arguments.watch then
      .ofInterrupted lines (.ofTick arguments compiler.watching tree)
    else .ofAttempt arguments lines (.ofArguments arguments compiler tree)

end Actions

end HopRouting
