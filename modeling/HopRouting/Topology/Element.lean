import HopRouting.Executor

/-!
# Nodes and edges

A node is a place where data is kept; an edge is a named way to move data from one node to
another.  Edges refer to their nodes by id, so an edge can exist before its nodes do.
-/

namespace HopRouting

/-- A storage or compute location. -/
structure Node where
  id : String
  /-- The class of builder that made the node. -/
  className : String
  /-- What kind of storage the node is, such as `hdfs`. -/
  platform : String
  active : Bool
  /-- The declaration of the node. -/
  properties : PropertySet
  deriving DecidableEq

/-- A directed way to move data between two nodes. -/
structure Edge where
  id : String
  source : String
  destination : String
  name : String
  /-- The class of builder that made the edge. -/
  className : String
  /-- The template of the job that moves data along the edge. -/
  templateUri : String
  /-- Executors in order of preference. -/
  executors : List Executor
  active : Bool
  /-- The declaration of the edge. -/
  properties : PropertySet
  deriving DecidableEq

/-- The class of builder that is used where none is declared. -/
def baseClass : String := "base"

namespace Node

/-- An active node without a declaration. -/
def plain (id platform : String) : Node where
  id := id
  className := baseClass
  platform := platform
  active := true
  properties := ∅

end Node

namespace Edge

/-- The id of the edge called `name` between two nodes. -/
def idOf (source destination name : String) : String :=
  source ++ "_" ++ destination ++ "_" ++ name

/-- An active edge without a declaration. -/
def plain (source destination name templateUri : String) (executors : List Executor) : Edge where
  id := idOf source destination name
  source := source
  destination := destination
  name := name
  className := baseClass
  templateUri := templateUri
  executors := executors
  active := true
  properties := ∅

/-- The first executor of the edge that covers the required capability. -/
def firstCapable? (edge : Edge) (required : Capability) : Option Executor :=
  edge.executors.find? (·.supports required)

end Edge

end HopRouting
