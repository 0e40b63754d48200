import Mathlib.Data.List.Forall2
import HopRouting.Proofs.Route.Verdicts

/-!
# Plans of routes

A plan holds one entry for every hop of its route, in the order of the hops.  `Flow.Serves` says
what an entry tells about its hop: the executor that was chosen, the template, the name of the edge
in the URI, and the edge and its ends in the configuration.  The latter are there whatever the
template or the flow set, because they are stamped last.

A graph is asked for a plan by way of its snapshot; `Graph.query` is that question.
-/

namespace HopRouting

theorem forall₂_mapIdx
    {α β : Type} {R : β → α → Prop} {make : Nat → α → β}
    (hmake : ∀ (index : Nat) (item : α), R (make index item) item)
    (items : List α) :
    List.Forall₂ R (items.mapIdx make) items := by
  induction items generalizing make with
  | nil =>
      exact .nil
  | cons item rest ih =>
      rw [List.mapIdx_cons]
      have hrest : ∀ (index : Nat) (item : α), R (make (index + 1) item) item := by
        intro index
        exact hmake (index + 1)
      exact .cons (hmake 0 item) (ih hrest)

@[simp] theorem Dag.values_chain
    {α : Type}
    (values : List α) :
    (Dag.chain values).values = values := by
  apply List.ext_getElem?
  intro position
  simp only [Dag.values, Dag.chain, List.getElem?_map, List.getElem?_mapIdx]
  cases values[position]? with
  | none =>
      rfl
  | some value =>
      rfl

namespace Flow

/-- What an entry of a plan tells about the hop it was made for. -/
structure Serves (flow : Flow) (entry : PlannedJob) (hop : Hop) : Prop where
  executor : entry.executor = hop.executor
  templateUri : entry.job.templateUri = hop.edge.templateUri
  uri : entry.job.uri = flow.jobUri hop.edge
  edge : entry.job.config[Key.jobEdge]? = some hop.edge.id
  source : entry.job.config[Key.jobSource]? = some hop.edge.source
  destination : entry.job.config[Key.jobDestination]? = some hop.edge.destination

theorem getElem?_config_jobOfHop
    (flow : Flow)
    (index : Nat)
    (hop : Hop)
    {key value : String}
    (hstamp : (flow.stamp index hop.edge)[key]? = some value) :
    (flow.jobOfHop index hop).job.config[key]? = some value := by
  unfold jobOfHop PropertySet.merge
  rw [Std.ExtTreeMap.getElem?_union, hstamp]
  rfl

theorem getElem?_stamp
    (flow : Flow)
    (index : Nat)
    (edge : Edge) :
    (flow.stamp index edge)[Key.jobName]? = some (flow.jobName edge) ∧
    (flow.stamp index edge)[Key.jobEdge]? = some edge.id ∧
    (flow.stamp index edge)[Key.jobHopIndex]? = some index.repr ∧
    (flow.stamp index edge)[Key.jobSource]? = some edge.source ∧
    (flow.stamp index edge)[Key.jobDestination]? = some edge.destination := by
  have hdistinct :
      [(Key.jobName, flow.jobName edge), (Key.jobEdge, edge.id),
        (Key.jobHopIndex, index.repr), (Key.jobSource, edge.source),
        (Key.jobDestination, edge.destination)].Pairwise
          (fun entry later => ¬ compare entry.1 later.1 = .eq) := by
    simp [Key.jobName, Key.jobEdge, Key.jobHopIndex, Key.jobSource, Key.jobDestination]
  refine ⟨?_, ?_, ?_, ?_, ?_⟩
  · exact Std.ExtTreeMap.getElem?_ofList_of_mem Std.ReflCmp.compare_self hdistinct (by simp)
  · exact Std.ExtTreeMap.getElem?_ofList_of_mem Std.ReflCmp.compare_self hdistinct (by simp)
  · exact Std.ExtTreeMap.getElem?_ofList_of_mem Std.ReflCmp.compare_self hdistinct (by simp)
  · exact Std.ExtTreeMap.getElem?_ofList_of_mem Std.ReflCmp.compare_self hdistinct (by simp)
  · exact Std.ExtTreeMap.getElem?_ofList_of_mem Std.ReflCmp.compare_self hdistinct (by simp)

theorem serves_jobOfHop
    (flow : Flow)
    (index : Nat)
    (hop : Hop) :
    flow.Serves (flow.jobOfHop index hop) hop := by
  obtain ⟨-, hedge, -, hsource, hdestination⟩ := flow.getElem?_stamp index hop.edge
  exact
    { executor := rfl
      templateUri := rfl
      uri := rfl
      edge := flow.getElem?_config_jobOfHop index hop hedge
      source := flow.getElem?_config_jobOfHop index hop hsource
      destination := flow.getElem?_config_jobOfHop index hop hdestination }

theorem serves_planOfRoute
    (flow : Flow)
    (route : List Hop) :
    List.Forall₂ flow.Serves (flow.planOfRoute route).values route := by
  unfold planOfRoute
  rw [Dag.values_chain]
  exact forall₂_mapIdx flow.serves_jobOfHop route

end Flow

namespace RouteQuery

theorem findPlan_eq_ok_iff
    {query : RouteQuery} {plan : Plan} :
    query.findPlan = .ok plan ↔
      ∃ route, query.findRoute = .ok route ∧ query.flow.planOfRoute route = plan := by
  unfold findPlan
  cases query.findRoute with
  | error cause =>
      simp [Except.map]
  | ok route =>
      simp [Except.map]

theorem exists_findPlan_iff
    {query : RouteQuery} :
    (∃ plan, query.findPlan = .ok plan) ↔ ∃ route, query.findRoute = .ok route := by
  simp only [findPlan_eq_ok_iff]
  constructor
  · rintro ⟨plan, route, hroute, -⟩
    exact ⟨route, hroute⟩
  · rintro ⟨route, hroute⟩
    exact ⟨_, route, hroute, rfl⟩

theorem findPlan_eq_error_iff
    {query : RouteQuery} {error : RouteError} :
    query.findPlan = .error error ↔ query.findRoute = .error error := by
  unfold findPlan
  cases query.findRoute with
  | error cause =>
      simp [Except.map]
  | ok route =>
      simp [Except.map]

end RouteQuery

/-- Asks for a flow to be routed over the graph as it stands. -/
def Graph.query (graph : Graph) (catalog : Catalog) (flow : Flow) : RouteQuery where
  snapshot := graph.snapshot
  catalog := catalog
  flow := flow

theorem Graph.Reachable.wellFormed
    {graph : Graph}
    (hreach : graph.Reachable)
    (catalog : Catalog)
    (flow : Flow) :
    (graph.query catalog flow).snapshot.WellFormed := by
  exact hreach.keyed.wellFormed_snapshot

end HopRouting
