import HopRouting.Executor
import HopRouting.Flow
import HopRouting.Plan.Dag

/-!
# Plans

A plan is a dependency graph of jobs, each with the executor that is to run it.
-/

namespace HopRouting

/-- A job and the executor chosen for it. -/
structure PlannedJob where
  job : Job
  executor : Executor
  deriving DecidableEq

/-- What is to be done to serve a flow. -/
abbrev Plan := Dag PlannedJob

end HopRouting
