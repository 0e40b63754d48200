import HopRouting.Plan.Basic
import HopRouting.Route.Search

/-!
# Plans for routes

Every hop of a route becomes a job.  The configuration of a job is that of the template, overridden
by the settings of the flow; on top of both are stamped the name of the job, its position, and the
edge and the nodes that it serves.
-/

namespace HopRouting

namespace Flow

/-- The name of the job that serves an edge. -/
def jobName (flow : Flow) (edge : Edge) : String :=
  flow.group ++ "_" ++ flow.name ++ "_" ++ edge.id

/-- The URI of the job that serves an edge. -/
def jobUri (flow : Flow) (edge : Edge) : String :=
  flow.group ++ "/" ++ flow.name ++ "/" ++ edge.id

/-- What is stamped over the configuration of a job, whatever else sets these keys. -/
def stamp (flow : Flow) (index : Nat) (edge : Edge) : PropertySet :=
  .ofList [(Key.jobName, flow.jobName edge), (Key.jobEdge, edge.id),
    (Key.jobHopIndex, index.repr), (Key.jobSource, edge.source),
    (Key.jobDestination, edge.destination)]

/-- The job of the hop at a position of the route. -/
def jobOfHop (flow : Flow) (index : Nat) (hop : Hop) : PlannedJob where
  job :=
    { uri := flow.jobUri hop.edge
      templateUri := hop.edge.templateUri
      description := hop.template.description
      config := (hop.template.config.merge flow.config).merge (flow.stamp index hop.edge) }
  executor := hop.executor

/-- The plan of a route. -/
def planOfRoute (flow : Flow) (route : List Hop) : Plan :=
  .chain (route.mapIdx flow.jobOfHop)

end Flow

namespace RouteQuery

/-- The plan that serves the flow. -/
def findPlan (query : RouteQuery) : Except RouteError Plan :=
  query.findRoute.map query.flow.planOfRoute

end RouteQuery

end HopRouting
