/-!
# Compiler metrics

A compiler counts the flows it could and could not plan, and takes a sample of the time each plan
took.  A metric registry exports collectors under names; a name can be taken only once.
-/

namespace HopRouting

/-- What a compiler counts. -/
structure Metrics where
  succeeded : Nat := 0
  failed : Nat := 0
  /-- The number of durations that were sampled. -/
  samples : Nat := 0
  deriving DecidableEq

/-- How the value of a collector is to be read. -/
inductive MetricKind where
  | counter
  /-- Samples sorted into buckets, given by their upper bounds in seconds. -/
  | histogram (bounds : List String)
  deriving DecidableEq

/-- A collector as it is exported. -/
structure MetricFamily where
  name : String
  help : String
  kind : MetricKind
  /-- The value of a counter, or the number of samples of a histogram. -/
  count : Nat
  deriving DecidableEq

namespace Metrics

/-- Counts a flow that was planned. -/
def recordSuccess (metrics : Metrics) : Metrics :=
  { metrics with succeeded := metrics.succeeded + 1, samples := metrics.samples + 1 }

/-- Counts a request that could not be planned. -/
def recordFailure (metrics : Metrics) : Metrics :=
  { metrics with failed := metrics.failed + 1 }

/-- The upper bounds of the buckets for durations. -/
def durationBounds : List String :=
  ["0.0001", "0.0005", "0.001", "0.005", "0.01", "0.05", "0.1", "0.5", "1"]

/-- The collectors of a compiler. -/
def families (metrics : Metrics) : List MetricFamily :=
  [{ name := "flowroute_compilations_succeeded_total"
     help := "Flow specs compiled into a physical plan"
     kind := .counter
     count := metrics.succeeded },
   { name := "flowroute_compilations_failed_total"
     help := "Flow specs that could not be compiled"
     kind := .counter
     count := metrics.failed },
   { name := "flowroute_compilation_duration_seconds"
     help := "Time spent compiling a flow spec (seconds)"
     kind := .histogram durationBounds
     count := metrics.samples }]

/-- The names of the collectors. -/
def names (metrics : Metrics) : List String :=
  metrics.families.map (·.name)

end Metrics

/-- The names under which collectors are exported. -/
structure MetricRegistry where
  taken : List String := []
  deriving DecidableEq

namespace MetricRegistry

/-- What is told when a name is taken already. -/
def duplicateReason : String := "Duplicate metrics collector registration attempted"

/-- Exports collectors under their names, if none of these is taken. -/
def register (registry : MetricRegistry) (names : List String) : Except String MetricRegistry :=
  if names.any registry.taken.contains then .error duplicateReason
  else .ok ⟨registry.taken ++ names⟩

/-- The collectors that are exported. -/
def gather (registry : MetricRegistry) (metrics : Metrics) : List MetricFamily :=
  metrics.families.filter fun family => registry.taken.contains family.name

end MetricRegistry

end HopRouting
