import HopRouting.Flow
import HopRouting.Template.Catalog
import HopRouting.Topology.Graph

/-!
# Hops

A hop is an edge that can be used for data arriving in some format, together with what was found
for it: the template of its job, the executor to run it, and the format of the data afterwards.

An edge can be used if it is active, both its nodes are there and active, the catalog has its
template, the template reads the data at the source and writes what is wanted at the destination,
and one of its executors covers the two platforms.  An edge whose template the catalog does not
know is merely unusable; any other failure of the catalog ends the search.
-/

namespace HopRouting

/-- Why no route is found. -/
inductive RouteError where
  | unknownEndpoint (id : String)
  | noRoute (source destination : String)
  | template (cause : CatalogError)
  deriving DecidableEq

namespace RouteError

/-- What is told about the error. -/
def message : RouteError → String
  | unknownEndpoint id => s!"Data node '{id}' is not present in the flow graph"
  | noRoute source destination => s!"No feasible path from '{source}' to '{destination}'"
  | template cause => s!"Template lookup failed: {cause.message}"

end RouteError

/-- An edge that can be used, with what was found for it. -/
structure Hop where
  edge : Edge
  template : Template
  executor : Executor
  /-- Format of the data after the hop. -/
  outputFormat : String

/-- A flow to be routed over a snapshot, with the catalog of templates. -/
structure RouteQuery where
  snapshot : Snapshot
  catalog : Catalog
  flow : Flow

namespace RouteQuery

/-- The nodes of an edge, if the edge and both of them are active. -/
def activeEnds? (query : RouteQuery) (edge : Edge) : Option (Node × Node) :=
  if !edge.active then none
  else match query.snapshot.nodes[edge.source]?, query.snapshot.nodes[edge.destination]? with
    | some source, some destination =>
      if source.active && destination.active then some (source, destination) else none
    | _, _ => none

/-- The format wanted at a node: that of the flow at its destination, and any elsewhere. -/
def wantedFormat (query : RouteQuery) (node : Node) : String :=
  if node.id = query.flow.destination then query.flow.outputFormat else Key.any

/-- The hop over an edge between two nodes with a template, for data that arrives in `format`. -/
def assign? (query : RouteQuery) (edge : Edge) (format : String) (source destination : Node)
    (template : Template) : Option Hop :=
  if template.supportsHop ⟨source.platform, format⟩
      ⟨destination.platform, query.wantedFormat destination⟩ then
    (edge.firstCapable? ⟨source.platform, destination.platform⟩).map fun executor =>
      { edge, template, executor, outputFormat := template.outputFormat format }
  else none

/-- The hop over an edge for data that arrives in `format`, if the edge can be used. -/
def hop? (query : RouteQuery) (edge : Edge) (format : String) : Except RouteError (Option Hop) :=
  match query.activeEnds? edge with
  | none => .ok none
  | some (source, destination) =>
    match query.catalog edge.templateUri with
    | .ok template => .ok (query.assign? edge format source destination template)
    | .error (.notFound _) => .ok none
    | .error cause => .error (.template cause)

end RouteQuery

end HopRouting
