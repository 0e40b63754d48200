import HopRouting.Sync.Layout

/-!
# Reports

A report lists what became of every operation of a batch, in order.
-/

namespace HopRouting

/-- What became of an operation. -/
inductive Outcome where
  | applied
  /-- There was nothing to remove. -/
  | rejected
  | skipped (reason : SkipReason)
  /-- The path is of no interest. -/
  | ignored
  deriving DecidableEq

namespace Outcome

/-- Whether the operation was skipped, for whatever reason. -/
def isSkipped : Outcome → Bool
  | skipped _ => true
  | _ => false

end Outcome

/-- What became of every operation, in order. -/
structure Report where
  outcomes : List (Path × Outcome)
  deriving DecidableEq

namespace Report

/-- The report of an empty batch. -/
def empty : Report := ⟨[]⟩

/-- The number of outcomes of a kind. -/
def count (report : Report) (isOfKind : Outcome → Bool) : Nat :=
  report.outcomes.countP fun (_, outcome) => isOfKind outcome

/-- The number of operations that were applied. -/
def applied (report : Report) : Nat := report.count (· = .applied)

/-- The number of operations that had nothing to remove. -/
def rejected (report : Report) : Nat := report.count (· = .rejected)

/-- The number of operations that were skipped. -/
def skipped (report : Report) : Nat := report.count Outcome.isSkipped

/-- The number of operations on paths of no interest. -/
def ignored (report : Report) : Nat := report.count (· = .ignored)

/-- What became of the last operation on a path. -/
def outcomeFor? (report : Report) (path : Path) : Option Outcome :=
  (report.outcomes.reverse.find? fun (p, _) => p.components = path.components).map (·.2)

end Report

end HopRouting
