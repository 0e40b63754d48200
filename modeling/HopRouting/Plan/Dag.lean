/-!
# Dependency graphs

A dependency graph lists values, each with the positions of those that must be done before it and
of those that wait for it.  `chain` lets every value wait for the one before it.
-/

namespace HopRouting

/-- A value with its neighbours in a dependency graph. -/
structure DagNode (α : Type) where
  value : α
  /-- Positions of the values to be done before this one. -/
  parents : List Nat
  /-- Positions of the values that wait for this one. -/
  children : List Nat
  deriving DecidableEq

/-- Values in the order of their positions, with their dependencies. -/
structure Dag (α : Type) where
  nodes : List (DagNode α)
  deriving DecidableEq

namespace Dag

variable {α : Type}

/-- The node at position `i` of a chain of `n` values. -/
def chainNode (n i : Nat) (value : α) : DagNode α where
  value := value
  parents := if i = 0 then [] else [i - 1]
  children := if i + 1 < n then [i + 1] else []

/-- The graph in which each value waits for the one before it. -/
def chain (values : List α) : Dag α :=
  ⟨values.mapIdx (chainNode values.length)⟩

/-- The values by position. -/
def values (dag : Dag α) : List α :=
  dag.nodes.map (·.value)

/-- The number of values. -/
def size (dag : Dag α) : Nat :=
  dag.nodes.length

/-- The node at a position. -/
def get? (dag : Dag α) (position : Nat) : Option (DagNode α) :=
  dag.nodes[position]?

/-- The nodes that wait for nothing. -/
def startNodes (dag : Dag α) : List (DagNode α) :=
  dag.nodes.filter (·.parents.isEmpty)

/-- The nodes that nothing waits for. -/
def endNodes (dag : Dag α) : List (DagNode α) :=
  dag.nodes.filter (·.children.isEmpty)

end Dag

end HopRouting
