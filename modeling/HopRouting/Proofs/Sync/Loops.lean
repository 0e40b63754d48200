import Mathlib.Data.List.Induction
import HopRouting.Proofs.Sync.Batches
import HopRouting.Sync.Monitor

/-!
# The poll loop over a queue

A monitor over a queue is told to start, to stop, and to poll or not to; batches and failures are
put into its queue, and timers tick.  All of this may come in any order.

**Tasks.**  A poll loop is a task.  Starting spawns one, and stopping cancels the one that the
monitor keeps; a cancelled task stays around until it notices.  A `Runtime` is a monitor with all of
its tasks, each of which would poll at a tick, so two loops would consume two batches.  Steps are
taken one at a time: the polls of a tick are over before the next step, and a task that was
cancelled notices before it polls again.

**Invariant.**  A monitor that keeps a loop has one task that is not cancelled, the newest, and one
that keeps none has no such task (`Tended`).  So the monitor of a runtime is the one that `handle`
gives for the same events (`monitor_run`).

**Result.**  `run_advances`: after any steps the batches that the queue ever held are those that
were consumed followed by those that are pending, and the graph is what following the consumed ones
as one batch gives.  The next tick consumes the first pending batch if the loop was started and not
stopped since and the monitor is active, and nothing otherwise.
-/

namespace HopRouting

/-- What is done to a monitor over a queue. -/
inductive PollStep where
  | start
  /-- Cancels the loop. -/
  | stop
  /-- Cancels the loop and waits until its task has ended. -/
  | shutdown
  | setActive (active : Bool)
  | push (changes : List Change)
  | pushError (cause : SourceError)
  | tick

namespace PollStep

/-- What the step is for the monitor. -/
def event : PollStep → MonitorEvent
  | start => .start
  | stop => .stop
  | shutdown => .stop
  | setActive active => .setActive active
  | push changes => .push (.ok changes)
  | pushError cause => .push (.error cause)
  | tick => .tick

/-- The step ends the loop. -/
def Ends (step : PollStep) : Prop :=
  step = stop ∨ step = shutdown

/-- What the step puts into the queue. -/
def batch? : PollStep → Option PollResult
  | push changes => some (.ok changes)
  | pushError cause => some (.error cause)
  | _ => none

/-- What the steps put into the queue, in order. -/
def pushed (steps : List PollStep) : List PollResult :=
  steps.filterMap batch?

/-- A step opens something that no later step closes. -/
def Stays (opens closes : PollStep → Prop) (steps : List PollStep) : Prop :=
  ∃ before step after,
    steps = before ++ step :: after ∧ opens step ∧ ∀ later ∈ after, ¬ closes later

/-- A loop has been started and not stopped since. -/
def Started (steps : List PollStep) : Prop :=
  Stays (· = start) Ends steps

/-- The monitor has been made active and not inactive since. -/
def Activated (steps : List PollStep) : Prop :=
  Stays (· = setActive true) (· = setActive false) steps

section Histories

variable {opens closes : PollStep → Prop} {steps : List PollStep} {step : PollStep}

theorem not_stays_nil :
    ¬ Stays opens closes [] := by
  rintro ⟨before, step, after, heq, -⟩
  simp at heq

theorem stays_append_singleton :
    Stays opens closes (steps ++ [step]) ↔
      opens step ∨ Stays opens closes steps ∧ ¬ closes step := by
  constructor
  · rintro ⟨before, opener, after, heq, hopens, hopen⟩
    rcases List.eq_nil_or_concat after with rfl | ⟨between, last, rfl⟩
    · obtain ⟨-, hlast⟩ := List.append_inj' heq rfl
      cases hlast
      exact Or.inl hopens
    · rw [List.concat_eq_append, ← List.cons_append, ← List.append_assoc] at heq
      obtain ⟨hsteps, hlast⟩ := List.append_inj' heq rfl
      cases hlast
      rw [List.concat_eq_append, List.forall_mem_append, List.forall_mem_singleton] at hopen
      exact Or.inr ⟨⟨before, opener, between, hsteps, hopens, hopen.1⟩, hopen.2⟩
  · rintro (hopens | ⟨⟨before, opener, after, rfl, hopens, hopen⟩, hstep⟩)
    · exact ⟨steps, step, [], rfl, hopens, List.forall_mem_nil _⟩
    · refine ⟨before, opener, after ++ [step], by simp, hopens, ?_⟩
      rw [List.forall_mem_append, List.forall_mem_singleton]
      exact ⟨hopen, hstep⟩

theorem started_append_singleton :
    Started (steps ++ [step]) ↔ step = start ∨ Started steps ∧ ¬ step.Ends :=
  @stays_append_singleton (· = start) Ends steps step

theorem activated_append_singleton :
    Activated (steps ++ [step]) ↔
      step = setActive true ∨ Activated steps ∧ step ≠ setActive false :=
  @stays_append_singleton (· = setActive true) (· = setActive false) steps step

theorem pushed_append
    (front back : List PollStep) :
    pushed (front ++ back) = pushed front ++ pushed back :=
  List.filterMap_append

end Histories

end PollStep

namespace Monitor

/-- A new monitor over a queue in which some batches are waiting. -/
def overQueue
    (settings : Settings)
    (registry : Registry)
    (loader : OverlayLoader)
    (catalog : FileTree → Catalog)
    (graph : Graph)
    (waiting : List PollResult) : Monitor where
  settings := settings
  registry := registry
  loader := loader
  catalog := catalog
  source := .queue ⟨waiting⟩
  graph := graph

section Operations

variable (monitor : Monitor) (tree : FileTree)

/-- To start leaves everything but the loop. -/
theorem exists_start_eq :
    ∃ pollLoop, monitor.start = { monitor with pollLoop := pollLoop } := by
  unfold start
  split
  · exact ⟨monitor.pollLoop, rfl⟩
  · exact ⟨_, rfl⟩

/-- A tick leaves everything but the source and the graph. -/
theorem exists_tick_eq :
    ∃ source graph, monitor.tick tree = { monitor with source := source, graph := graph } := by
  unfold tick poll
  split
  · split <;> exact ⟨_, _, rfl⟩
  · exact ⟨monitor.source, monitor.graph, rfl⟩

theorem start_of_isRunning
    (hrunning : monitor.isRunning = true) :
    monitor.start = monitor :=
  if_pos hrunning

theorem isRunning_start :
    monitor.start.isRunning = true := by
  unfold start
  split
  · assumption
  · rfl

theorem isRunning_tick :
    (monitor.tick tree).isRunning = monitor.isRunning := by
  obtain ⟨source, graph, htick⟩ := monitor.exists_tick_eq tree
  rw [htick]
  rfl

/-- The loop runs after a step that starts it, and goes on unless the step ends it. -/
theorem isRunning_handle_iff
    (step : PollStep) :
    (monitor.handle tree step.event).isRunning = true ↔
      step = .start ∨ monitor.isRunning = true ∧ ¬ step.Ends := by
  cases step with
  | start => exact iff_of_true monitor.isRunning_start (Or.inl rfl)
  | tick => simp [PollStep.event, handle, isRunning_tick, PollStep.Ends]
  | _ => simp [PollStep.event, handle, stop, setActive, push, isRunning, PollStep.Ends]

/-- The monitor is active after a step that makes it so, and stays so unless the step undoes it. -/
theorem active_handle_iff
    (step : PollStep) :
    (monitor.handle tree step.event).active = true ↔
      step = .setActive true ∨ monitor.active = true ∧ step ≠ .setActive false := by
  cases step with
  | start =>
      obtain ⟨pollLoop, hstart⟩ := monitor.exists_start_eq
      simp [PollStep.event, handle, hstart]
  | setActive active => cases active <;> simp [PollStep.event, handle, setActive]
  | tick =>
      obtain ⟨source, graph, htick⟩ := monitor.exists_tick_eq tree
      simp [PollStep.event, handle, htick]
  | _ => simp [PollStep.event, handle, stop, push]

/-- A step leaves what elements are built with. -/
theorem workshop_handle
    (step : PollStep) :
    (monitor.handle tree step.event).workshop tree = monitor.workshop tree := by
  cases step with
  | start =>
      obtain ⟨pollLoop, hstart⟩ := monitor.exists_start_eq
      rw [PollStep.event, handle, hstart]
      rfl
  | tick =>
      obtain ⟨source, graph, htick⟩ := monitor.exists_tick_eq tree
      rw [PollStep.event, handle, htick]
      rfl
  | _ => rfl

/-- Only a tick changes the graph. -/
theorem graph_handle_of_ne_tick
    {step : PollStep}
    (hstep : step ≠ .tick) :
    (monitor.handle tree step.event).graph = monitor.graph := by
  cases step with
  | start =>
      obtain ⟨pollLoop, hstart⟩ := monitor.exists_start_eq
      rw [PollStep.event, handle, hstart]
  | tick => exact absurd rfl hstep
  | _ => rfl

end Operations

section Queues

variable {monitor : Monitor}

/-- A step that is no tick puts what it brings behind what is pending. -/
theorem source_handle_of_ne_tick
    (tree : FileTree)
    {step : PollStep} {pending : List PollResult}
    (hstep : step ≠ .tick)
    (hsource : monitor.source = .queue ⟨pending⟩) :
    (monitor.handle tree step.event).source = .queue ⟨pending ++ PollStep.pushed [step]⟩ := by
  have hkept :
      PollStep.pushed [step] = [] →
        monitor.source = .queue ⟨pending ++ PollStep.pushed [step]⟩ := by
    intro hnothing
    rw [hnothing, List.append_nil, hsource]
  cases step with
  | start =>
      obtain ⟨pollLoop, hstart⟩ := monitor.exists_start_eq
      rw [PollStep.event, handle, hstart]
      exact hkept rfl
  | stop => exact hkept rfl
  | shutdown => exact hkept rfl
  | setActive active => exact hkept rfl
  | push changes => exact congrArg (Source.push · (.ok changes)) hsource
  | pushError cause => exact congrArg (Source.push · (.error cause)) hsource
  | tick => exact absurd rfl hstep

theorem tick_of_due
    (tree : FileTree)
    (hrunning : monitor.isRunning = true)
    (hactive : monitor.active = true) :
    monitor.tick tree = (monitor.poll tree).2 := by
  rw [tick, hrunning, hactive]
  rfl

theorem tick_of_not_due
    (tree : FileTree)
    (hidle : ¬ (monitor.isRunning = true ∧ monitor.active = true)) :
    monitor.tick tree = monitor := by
  rw [tick, if_neg]
  rwa [Bool.and_eq_true]

theorem poll_of_queue_nil
    (tree : FileTree)
    (hsource : monitor.source = .queue ⟨[]⟩) :
    (monitor.poll tree).2 = monitor := by
  cases monitor
  cases hsource
  rfl

theorem poll_of_queue_cons
    (tree : FileTree)
    {batch : PollResult} {rest : List PollResult}
    (hsource : monitor.source = .queue ⟨batch :: rest⟩) :
    (monitor.poll tree).2 =
      { monitor with
        source := .queue ⟨rest⟩
        graph := ((monitor.workshop tree).process monitor.graph (batch.toOption.getD [])).2 } := by
  cases monitor
  cases hsource
  cases batch <;> rfl

end Queues

end Monitor

/-- The task of a poll loop that has not ended. -/
structure PollTask where
  cancelled : Bool := false

namespace PollTask

/-- Tells the task to end. -/
def cancel (task : PollTask) : PollTask :=
  { task with cancelled := true }

/-- What the task does with the monitor at a tick: it polls if the monitor is active, but not once
it was cancelled.  Steps are done one after the other, so that a cancelled task is taken to notice
this before it polls again, and to end instead, even if its tick is due at the same moment. -/
def tick (tree : FileTree) (monitor : Monitor) (task : PollTask) : Monitor :=
  if !task.cancelled && monitor.active then (monitor.poll tree).2 else monitor

end PollTask

/-- A monitor and the tasks that were spawned for it and have not ended, the newest first.  If the
monitor keeps a loop, it is that of the newest task. -/
structure Runtime where
  monitor : Monitor
  tasks : List PollTask

namespace Runtime

/-- The tasks that go on polling. -/
def live (runtime : Runtime) : List PollTask :=
  runtime.tasks.filter fun task => !task.cancelled

/-- Spawns a task unless the monitor keeps a loop. -/
def start (runtime : Runtime) : Runtime :=
  if runtime.monitor.isRunning then runtime else ⟨runtime.monitor.start, {} :: runtime.tasks⟩

/-- Cancels the task of the loop that the monitor keeps, and drops the loop. -/
def stop (runtime : Runtime) : Runtime where
  monitor := runtime.monitor.stop
  tasks :=
    if runtime.monitor.isRunning then runtime.tasks.modifyHead PollTask.cancel else runtime.tasks

/-- Stops, and waits until the task has ended. -/
def shutdown (runtime : Runtime) : Runtime where
  monitor := runtime.monitor.stop
  tasks := if runtime.monitor.isRunning then runtime.tasks.tail else runtime.tasks

/-- Lets every task have a tick; those that were cancelled end instead. -/
def tick (tree : FileTree) (runtime : Runtime) : Runtime where
  monitor := runtime.tasks.foldl (PollTask.tick tree) runtime.monitor
  tasks := runtime.live

/-- Does a step. -/
def step (tree : FileTree) (runtime : Runtime) : PollStep → Runtime
  | .start => runtime.start
  | .stop => runtime.stop
  | .shutdown => runtime.shutdown
  | .setActive active => { runtime with monitor := runtime.monitor.setActive active }
  | .push changes => { runtime with monitor := runtime.monitor.push (.ok changes) }
  | .pushError cause => { runtime with monitor := runtime.monitor.push (.error cause) }
  | .tick => runtime.tick tree

/-- What becomes of a monitor without tasks in a number of steps. -/
def run (tree : FileTree) (monitor : Monitor) (steps : List PollStep) : Runtime :=
  steps.foldl (step tree) ⟨monitor, []⟩

theorem run_append_singleton
    (tree : FileTree)
    (monitor : Monitor)
    (steps : List PollStep)
    (next : PollStep) :
    run tree monitor (steps ++ [next]) = (run tree monitor steps).step tree next :=
  List.foldl_append

/-- Only the loop that the monitor keeps has a task that was not cancelled. -/
inductive Tended : Runtime → Prop
  | idle {monitor : Monitor} {tasks : List PollTask} :
      monitor.isRunning = false →
      (∀ task ∈ tasks, task.cancelled = true) →
      Tended ⟨monitor, tasks⟩
  | looping {monitor : Monitor} {newest : PollTask} {older : List PollTask} :
      monitor.isRunning = true →
      newest.cancelled = false →
      (∀ task ∈ older, task.cancelled = true) →
      Tended ⟨monitor, newest :: older⟩

section Tasks

variable {runtime : Runtime} {tasks : List PollTask}

theorem filter_of_cancelled
    (hcancelled : ∀ task ∈ tasks, task.cancelled = true) :
    (tasks.filter fun task => !task.cancelled) = [] := by
  rw [List.filter_eq_nil_iff]
  intro task htask
  simp [hcancelled task htask]

/-- Tasks that were cancelled leave the monitor alone. -/
theorem foldl_tick_of_cancelled
    (tree : FileTree)
    (monitor : Monitor)
    (hcancelled : ∀ task ∈ tasks, task.cancelled = true) :
    tasks.foldl (PollTask.tick tree) monitor = monitor := by
  induction tasks with
  | nil => rfl
  | cons task rest ih =>
      obtain ⟨htask, hrest⟩ := List.forall_mem_cons.mp hcancelled
      have hleft : PollTask.tick tree monitor task = monitor := by
        simp [PollTask.tick, htask]
      rw [List.foldl_cons, hleft]
      exact ih hrest

/-- There is one live task if the monitor keeps a loop, and none otherwise. -/
theorem Tended.length_live
    (htended : runtime.Tended) :
    runtime.live.length = if runtime.monitor.isRunning then 1 else 0 := by
  cases htended with
  | idle hidle hcancelled =>
      simp [live, filter_of_cancelled hcancelled, hidle]
  | looping hrunning hnewest holder =>
      simp [live, filter_of_cancelled holder, hnewest, hrunning]

/-- At a tick the monitor polls as if there were no tasks. -/
theorem Tended.monitor_tick
    (htended : runtime.Tended)
    (tree : FileTree) :
    (runtime.tick tree).monitor = runtime.monitor.tick tree := by
  cases htended with
  | idle hidle hcancelled =>
      simp [tick, Monitor.tick, foldl_tick_of_cancelled tree _ hcancelled, hidle]
  | looping hrunning hnewest holder =>
      simp [tick, Monitor.tick, PollTask.tick, foldl_tick_of_cancelled tree _ holder, hnewest,
        hrunning]

/-- A step does to the monitor what its event does. -/
theorem Tended.monitor_step
    (htended : runtime.Tended)
    (tree : FileTree)
    (next : PollStep) :
    (runtime.step tree next).monitor = runtime.monitor.handle tree next.event := by
  cases next with
  | start =>
      by_cases hrunning : runtime.monitor.isRunning = true
      · rw [PollStep.event, Monitor.handle, Monitor.start_of_isRunning _ hrunning, step, start,
          if_pos hrunning]
      · rw [PollStep.event, Monitor.handle, step, start, if_neg hrunning]
  | tick => exact htended.monitor_tick tree
  | _ => rfl

theorem Tended.stop
    (htended : runtime.Tended) :
    runtime.stop.Tended := by
  cases htended with
  | @idle monitor tasks hidle hcancelled =>
      rw [Runtime.stop, hidle]
      exact .idle rfl hcancelled
  | @looping monitor newest older hrunning hnewest holder =>
      rw [Runtime.stop, hrunning]
      exact .idle rfl (List.forall_mem_cons.mpr ⟨rfl, holder⟩)

theorem Tended.shutdown
    (htended : runtime.Tended) :
    runtime.shutdown.Tended := by
  cases htended with
  | @idle monitor tasks hidle hcancelled =>
      rw [Runtime.shutdown, hidle]
      exact .idle rfl hcancelled
  | @looping monitor newest older hrunning hnewest holder =>
      rw [Runtime.shutdown, hrunning]
      exact .idle rfl holder

theorem Tended.start
    (htended : runtime.Tended) :
    runtime.start.Tended := by
  cases htended with
  | @idle monitor tasks hidle hcancelled =>
      rw [Runtime.start, hidle]
      exact .looping monitor.isRunning_start rfl hcancelled
  | @looping monitor newest older hrunning hnewest holder =>
      rw [Runtime.start, hrunning]
      exact .looping hrunning hnewest holder

/-- A monitor that is exchanged for one that keeps a loop just if it did is tended as well. -/
theorem Tended.exchange
    {monitor : Monitor}
    (htended : runtime.Tended)
    (hsame : monitor.isRunning = runtime.monitor.isRunning) :
    Tended ⟨monitor, runtime.tasks⟩ := by
  cases htended with
  | idle hidle hcancelled => exact .idle (hsame.trans hidle) hcancelled
  | looping hrunning hnewest holder => exact .looping (hsame.trans hrunning) hnewest holder

theorem Tended.tick
    (htended : runtime.Tended)
    (tree : FileTree) :
    (runtime.tick tree).Tended := by
  have hloop : (runtime.tick tree).monitor.isRunning = runtime.monitor.isRunning := by
    rw [htended.monitor_tick, Monitor.isRunning_tick]
  cases htended with
  | @idle monitor tasks hidle hcancelled =>
      have hlive : live ⟨monitor, tasks⟩ = [] := filter_of_cancelled hcancelled
      rw [Runtime.tick, hlive]
      exact .idle (hloop.trans hidle) (List.forall_mem_nil _)
  | @looping monitor newest older hrunning hnewest holder =>
      have hlive : live ⟨monitor, newest :: older⟩ = [newest] := by
        simp [live, filter_of_cancelled holder, hnewest]
      rw [Runtime.tick, hlive]
      exact .looping (hloop.trans hrunning) hnewest (List.forall_mem_nil _)

theorem Tended.step
    (htended : runtime.Tended)
    (tree : FileTree)
    (next : PollStep) :
    (runtime.step tree next).Tended := by
  cases next with
  | start => exact htended.start
  | stop => exact htended.stop
  | shutdown => exact htended.shutdown
  | setActive active => exact htended.exchange rfl
  | push changes => exact htended.exchange rfl
  | pushError cause => exact htended.exchange rfl
  | tick => exact htended.tick tree

end Tasks

section Runs

variable {initial : Monitor}
variable (hinitial : initial.isRunning = false) (tree : FileTree) (steps : List PollStep)

include hinitial

theorem tended_run :
    (run tree initial steps).Tended := by
  induction steps using List.reverseRecOn with
  | nil => exact .idle hinitial (List.forall_mem_nil _)
  | append_singleton before next ih =>
      rw [run_append_singleton]
      exact ih.step tree next

theorem monitor_run_append_singleton
    (next : PollStep) :
    (run tree initial (steps ++ [next])).monitor =
      (run tree initial steps).monitor.handle tree next.event := by
  rw [run_append_singleton, (tended_run hinitial tree steps).monitor_step]

/-- Beside its tasks, a runtime is a monitor to which the events of the steps happened. -/
theorem monitor_run :
    (run tree initial steps).monitor =
      (steps.map PollStep.event).foldl (Monitor.handle · tree) initial := by
  induction steps using List.reverseRecOn with
  | nil => rfl
  | append_singleton before next ih =>
      rw [monitor_run_append_singleton hinitial, ih, List.map_append, List.foldl_append]
      rfl

theorem workshop_run :
    (run tree initial steps).monitor.workshop tree = initial.workshop tree := by
  induction steps using List.reverseRecOn with
  | nil => rfl
  | append_singleton before next ih =>
      rw [monitor_run_append_singleton hinitial, Monitor.workshop_handle, ih]

theorem isRunning_run_iff :
    (run tree initial steps).monitor.isRunning = true ↔ PollStep.Started steps := by
  induction steps using List.reverseRecOn with
  | nil => exact iff_of_false (ne_true_of_eq_false hinitial) PollStep.not_stays_nil
  | append_singleton before next ih =>
      rw [monitor_run_append_singleton hinitial, Monitor.isRunning_handle_iff, ih,
        PollStep.started_append_singleton]

theorem active_run_iff
    (hinactive : initial.active = false) :
    (run tree initial steps).monitor.active = true ↔ PollStep.Activated steps := by
  induction steps using List.reverseRecOn with
  | nil => exact iff_of_false (ne_true_of_eq_false hinactive) PollStep.not_stays_nil
  | append_singleton before next ih =>
      rw [monitor_run_append_singleton hinitial, Monitor.active_handle_iff, ih,
        PollStep.activated_append_singleton]

theorem length_live_run_le_one :
    (run tree initial steps).live.length ≤ 1 := by
  rw [(tended_run hinitial tree steps).length_live]
  split <;> omega

/-- Some task is live if a loop was started and not stopped since. -/
theorem live_run_ne_nil_iff :
    (run tree initial steps).live ≠ [] ↔ PollStep.Started steps := by
  rw [← isRunning_run_iff hinitial tree steps, ← List.length_pos_iff,
    (tended_run hinitial tree steps).length_live]
  split <;> simp_all

/-- To start a loop that runs does nothing. -/
theorem run_start_of_started
    (hstarted : PollStep.Started steps) :
    run tree initial (steps ++ [.start]) = run tree initial steps := by
  rw [run_append_singleton]
  exact if_pos ((isRunning_run_iff hinitial tree steps).mpr hstarted)

end Runs

/-- The changes of the batches that are no failures, in order. -/
def changesOf (batches : List PollResult) : List Change :=
  batches.flatMap fun batch => batch.toOption.getD []

/-- What a monitor with `waiting` in its queue has consumed in some steps, and what is pending. -/
structure Ledger
    (tree : FileTree)
    (initial : Monitor)
    (waiting : List PollResult)
    (steps : List PollStep)
    (consumed pending : List PollResult) : Prop where
  /-- No batch is lost, doubled or out of order. -/
  batches : waiting ++ PollStep.pushed steps = consumed ++ pending
  source : (run tree initial steps).monitor.source = .queue ⟨pending⟩
  /-- The graph is what following the consumed changes as one batch gives. -/
  graph :
    (run tree initial steps).monitor.graph =
      ((initial.workshop tree).process initial.graph (changesOf consumed)).2

section Consumption

variable {tree : FileTree} {initial : Monitor} {waiting consumed pending : List PollResult}
variable {steps : List PollStep}

theorem ledger_nil
    (hsource : initial.source = .queue ⟨waiting⟩) :
    Ledger tree initial waiting [] [] waiting where
  batches := List.append_nil waiting
  source := hsource
  graph := rfl

/-- A step that is no tick consumes nothing. -/
theorem Ledger.append_of_ne_tick
    (hledger : Ledger tree initial waiting steps consumed pending)
    (hinitial : initial.isRunning = false)
    {next : PollStep}
    (hnext : next ≠ .tick) :
    Ledger tree initial waiting (steps ++ [next]) consumed (pending ++ PollStep.pushed [next]) where
  batches := by
    rw [PollStep.pushed_append, ← List.append_assoc, hledger.batches, List.append_assoc]
  source := by
    rw [monitor_run_append_singleton hinitial]
    exact Monitor.source_handle_of_ne_tick tree hnext hledger.source
  graph := by
    rw [monitor_run_append_singleton hinitial, Monitor.graph_handle_of_ne_tick _ tree hnext]
    exact hledger.graph

/-- A tick after which the monitor is as before consumes nothing. -/
theorem Ledger.append_tick_of_eq
    (hledger : Ledger tree initial waiting steps consumed pending)
    (hinitial : initial.isRunning = false)
    (hsame : (run tree initial steps).monitor.tick tree = (run tree initial steps).monitor) :
    Ledger tree initial waiting (steps ++ [.tick]) consumed pending := by
  have hmonitor :
      (run tree initial (steps ++ [.tick])).monitor = (run tree initial steps).monitor :=
    (monitor_run_append_singleton hinitial tree steps .tick).trans hsame
  exact
    { batches := by
        rw [PollStep.pushed_append, ← List.append_assoc, hledger.batches]
        exact List.append_nil _
      source := by rw [hmonitor, hledger.source]
      graph := by rw [hmonitor, hledger.graph] }

/-- A tick that polls consumes the batch that is next. -/
theorem Ledger.append_tick_of_due
    {batch : PollResult}
    (hledger : Ledger tree initial waiting steps consumed (batch :: pending))
    (hinitial : initial.isRunning = false)
    (hrunning : (run tree initial steps).monitor.isRunning = true)
    (hactive : (run tree initial steps).monitor.active = true) :
    Ledger tree initial waiting (steps ++ [.tick]) (consumed ++ [batch]) pending := by
  have hmonitor := monitor_run_append_singleton hinitial tree steps .tick
  rw [PollStep.event, Monitor.handle, Monitor.tick_of_due tree hrunning hactive,
    Monitor.poll_of_queue_cons tree hledger.source] at hmonitor
  exact
    { batches := by
        rw [PollStep.pushed_append, ← List.append_assoc, hledger.batches, List.append_cons]
        exact List.append_nil _
      source := by rw [hmonitor]
      graph := by
        rw [hmonitor, changesOf, List.flatMap_append, Workshop.process_append,
          List.flatMap_singleton, workshop_run hinitial, hledger.graph]
        rfl }

/-- A tick without a loop, of an inactive monitor or over an empty queue consumes nothing. -/
theorem Ledger.append_tick_of_not_due
    (hledger : Ledger tree initial waiting steps consumed pending)
    (hinitial : initial.isRunning = false)
    (hidle :
      ¬ ((run tree initial steps).monitor.isRunning = true ∧
          (run tree initial steps).monitor.active = true ∧ pending ≠ [])) :
    Ledger tree initial waiting (steps ++ [.tick]) consumed pending := by
  apply hledger.append_tick_of_eq hinitial
  by_cases hpolls :
      (run tree initial steps).monitor.isRunning = true ∧
        (run tree initial steps).monitor.active = true
  · have hempty : pending = [] := by
      by_contra hpending
      exact hidle ⟨hpolls.1, hpolls.2, hpending⟩
    have hsource := hledger.source
    rw [hempty] at hsource
    rw [Monitor.tick_of_due tree hpolls.1 hpolls.2, Monitor.poll_of_queue_nil tree hsource]
  · exact Monitor.tick_of_not_due tree hpolls

/-- Whatever the steps are, they have a ledger: each of them consumes the batch that is next, or
nothing. -/
theorem exists_ledger
    (hinitial : initial.isRunning = false)
    (hsource : initial.source = .queue ⟨waiting⟩)
    (tree : FileTree)
    (steps : List PollStep) :
    ∃ consumed pending, Ledger tree initial waiting steps consumed pending := by
  induction steps using List.reverseRecOn with
  | nil => exact ⟨[], waiting, ledger_nil hsource⟩
  | append_singleton before next ih =>
      obtain ⟨consumed, pending, hledger⟩ := ih
      by_cases hnext : next = .tick
      · subst hnext
        by_cases hdue :
            (run tree initial before).monitor.isRunning = true ∧
              (run tree initial before).monitor.active = true ∧ pending ≠ []
        · obtain ⟨hrunning, hactive, hpending⟩ := hdue
          obtain ⟨batch, rest, rfl⟩ := List.exists_cons_of_ne_nil hpending
          exact ⟨_, _, hledger.append_tick_of_due hinitial hrunning hactive⟩
        · exact ⟨_, _, hledger.append_tick_of_not_due hinitial hdue⟩
      · exact ⟨_, _, hledger.append_of_ne_tick hinitial hnext⟩

/-- Failures bring no changes. -/
theorem changesOf_append_error
    (batches : List PollResult)
    (cause : SourceError) :
    changesOf (batches ++ [.error cause]) = changesOf batches := by
  rw [changesOf, List.flatMap_append]
  exact List.append_nil _

end Consumption

/-- How a monitor that has consumed some batches in some steps, and has yet to consume others, goes
on in one more step. -/
structure Advances
    (tree : FileTree)
    (initial : Monitor)
    (waiting : List PollResult)
    (steps : List PollStep)
    (consumed pending : List PollResult) : Prop where
  /-- Tasks make no difference to the monitor. -/
  handled :
    (run tree initial steps).monitor =
      (steps.map PollStep.event).foldl (Monitor.handle · tree) initial
  ledger : Ledger tree initial waiting steps consumed pending
  /-- A tick of an active monitor with a loop consumes the batch that is next. -/
  tick_of_due :
    PollStep.Started steps → PollStep.Activated steps →
      ∀ batch rest, pending = batch :: rest →
        Ledger tree initial waiting (steps ++ [.tick]) (consumed ++ [batch]) rest
  /-- Any other tick consumes nothing. -/
  tick_of_not_due :
    ¬ (PollStep.Started steps ∧ PollStep.Activated steps ∧ pending ≠ []) →
      Ledger tree initial waiting (steps ++ [.tick]) consumed pending
  /-- A failure that is consumed leaves the graph as it was. -/
  tick_of_failure :
    ∀ cause rest, pending = .error cause :: rest →
      (run tree initial (steps ++ [.tick])).monitor.graph =
        (run tree initial steps).monitor.graph
  /-- Nothing but a tick consumes. -/
  other :
    ∀ next, next ≠ .tick →
      Ledger tree initial waiting (steps ++ [next]) consumed
        (pending ++ PollStep.pushed [next])
  live_le_one : (run tree initial steps).live.length ≤ 1
  live_iff : (run tree initial steps).live ≠ [] ↔ PollStep.Started steps
  /-- To start a loop that runs does nothing. -/
  start_of_started :
    PollStep.Started steps → run tree initial (steps ++ [.start]) = run tree initial steps

/-- What a ledger tells of the steps so far is all that is needed to go on. -/
theorem Ledger.advances
    {tree : FileTree} {initial : Monitor} {waiting consumed pending : List PollResult}
    {steps : List PollStep}
    (hledger : Ledger tree initial waiting steps consumed pending)
    (hinitial : initial.isRunning = false)
    (hinactive : initial.active = false) :
    Advances tree initial waiting steps consumed pending := by
  have hrunning := isRunning_run_iff hinitial tree steps
  have hactive := active_run_iff hinitial tree steps hinactive
  have hnot :
      ¬ (PollStep.Started steps ∧ PollStep.Activated steps ∧ pending ≠ []) →
        Ledger tree initial waiting (steps ++ [.tick]) consumed pending := by
    intro hidle
    rw [← hrunning, ← hactive] at hidle
    exact hledger.append_tick_of_not_due hinitial hidle
  have hdue :
      PollStep.Started steps → PollStep.Activated steps →
        ∀ batch rest, pending = batch :: rest →
          Ledger tree initial waiting (steps ++ [.tick]) (consumed ++ [batch]) rest := by
    intro hstarted hactivated batch rest hpending
    rw [hpending] at hledger
    exact hledger.append_tick_of_due hinitial (hrunning.mpr hstarted) (hactive.mpr hactivated)
  exact
    { handled := monitor_run hinitial tree steps
      ledger := hledger
      tick_of_due := hdue
      tick_of_not_due := hnot
      tick_of_failure := by
        intro cause rest hpending
        by_cases hpolls : PollStep.Started steps ∧ PollStep.Activated steps
        · have hnext := hdue hpolls.1 hpolls.2 (.error cause) rest hpending
          rw [hnext.graph, changesOf_append_error, hledger.graph]
        · have hnext := hnot fun hall => hpolls ⟨hall.1, hall.2.1⟩
          rw [hnext.graph, hledger.graph]
      other := fun next hnext => hledger.append_of_ne_tick hinitial hnext
      live_le_one := length_live_run_le_one hinitial tree steps
      live_iff := live_run_ne_nil_iff hinitial tree steps
      start_of_started := run_start_of_started hinitial tree steps }

/-- Whatever is done to a new monitor over a queue, every batch is consumed at most once and in the
order of the queue, by ticks while the one loop runs and the monitor is active. -/
theorem run_advances
    (settings : Settings)
    (registry : Registry)
    (loader : OverlayLoader)
    (catalog : FileTree → Catalog)
    (graph : Graph)
    (waiting : List PollResult)
    (tree : FileTree)
    (steps : List PollStep) :
    ∃ consumed pending,
      Advances tree (.overQueue settings registry loader catalog graph waiting) waiting steps
        consumed pending := by
  obtain ⟨consumed, pending, hledger⟩ :=
    @exists_ledger (.overQueue settings registry loader catalog graph waiting) waiting rfl rfl
      tree steps
  exact ⟨consumed, pending, hledger.advances rfl rfl⟩

example
    (settings : Settings) (registry : Registry) (loader : OverlayLoader)
    (catalog : FileTree → Catalog) (graph : Graph) (tree : FileTree)
    (first second : SourceError) :
    (run tree
        (.overQueue settings registry loader catalog graph [.error first, .error second])
        [.start, .setActive true, .stop, .start, .tick]).monitor.source =
      .queue ⟨[.error second]⟩ :=
  rfl

end Runtime

end HopRouting
