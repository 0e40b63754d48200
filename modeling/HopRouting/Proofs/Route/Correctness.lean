import HopRouting.Proofs.Route.Plans

/-!
# Correctness of route planning

The results below are about every reachable graph, every catalog and every flow.

* `findPlan_sound`: a plan serves a route for the flow, one entry a hop.
* `findPlan_complete`: if the catalog fails on no template otherwise than by not finding it, then
  a plan is found exactly when there is a route, and every other answer tells why there is none.
* `findPlan_first`: the route is the direct hop with the smallest edge id, or else the first of all
  routes, and nothing but the nodes and edges of the graph decides which one that is.
-/

namespace HopRouting

/-- A template that takes any data and leaves its format alone. -/
def passOn : Template where
  uri := "FS:///pass-on.template"
  description := "Passes data on."
  input := .any
  output := .any
  config := ∅

/-- The edge called `name` of the relay between two nodes. -/
def relayEdge (source destination name : String) : Edge :=
  .plain source destination name passOn.uri [.ofCapabilities "copy" [⟨Key.any, Key.any⟩]]

def relayHistory : List Graph.Update :=
  [.node (.add (.plain "A" "hdfs")), .node (.add (.plain "B" "hdfs")),
    .node (.add (.plain "C" "hdfs")), .edge (.add (relayEdge "A" "B" "slow")),
    .edge (.add (relayEdge "A" "B" "fast")), .edge (.add (relayEdge "B" "C" "fast"))]

/-- Three nodes and edges from each of them to the next, two of them between the same nodes. -/
def relayGraph : Graph := Graph.empty.replay relayHistory

def relayCatalog : Catalog := TemplateShelf.catalog (TemplateShelf.add ∅ passOn)

/-- A flow over the relay, of data in one format that is asked for in another. -/
def relayFlow : Flow :=
  { group := "relays", name := "relay", source := "A", destination := "C",
    inputFormat := "avro", outputFormat := "orc" }

def relayHop (edge : Edge) : Hop :=
  ⟨edge, passOn, .ofCapabilities "copy" [⟨Key.any, Key.any⟩], "avro"⟩

def relayRoute : List Hop :=
  [relayHop (relayEdge "A" "B" "fast"), relayHop (relayEdge "B" "C" "fast")]

theorem reachable_relayGraph :
    relayGraph.Reachable := by
  exact ⟨relayHistory, rfl⟩

theorem findPlan_relay :
    (relayGraph.query relayCatalog relayFlow).findPlan =
      .ok (relayFlow.planOfRoute relayRoute) := by
  rfl

theorem TemplateShelf.catalog_answers
    (shelf : TemplateShelf)
    (uri : String) :
    (∃ template, shelf.catalog uri = .ok template) ∨
      ∃ missing, shelf.catalog uri = .error (.notFound missing) := by
  unfold catalog
  cases shelf[uri]? with
  | none =>
      exact Or.inr ⟨uri, rfl⟩
  | some template =>
      exact Or.inl ⟨template, rfl⟩

section Correctness

variable {graph : Graph} {catalog : Catalog} {flow : Flow} {plan : Plan}

/-- The answer with a route is the answer with a first route between two nodes. -/
theorem isFirstRoute_of_findRoute
    (hreach : graph.Reachable)
    {route : List Hop}
    (hroute : (graph.query catalog flow).findRoute = .ok route) :
    (graph.query catalog flow).IsFirstRoute route ∧
      flow.source ∈ graph.nodes ∧
      flow.source ≠ flow.destination := by
  have hverdict := (graph.query catalog flow).findRoute_verdict (hreach.wellFormed catalog flow)
  rw [hroute] at hverdict
  cases hverdict with
  | found hknown hne hfirst =>
      exact ⟨hfirst, (RouteQuery.unknownEndpoint?_eq_none_iff.mp hknown).1, hne⟩

/-- The answer with a plan is the answer with a first route. -/
theorem exists_firstRoute
    (hreach : graph.Reachable)
    (hplan : (graph.query catalog flow).findPlan = .ok plan) :
    ∃ route,
      List.Forall₂ flow.Serves plan.values route ∧
      (graph.query catalog flow).IsFirstRoute route ∧
      flow.source ∈ graph.nodes ∧
      flow.source ≠ flow.destination := by
  obtain ⟨route, hroute, rfl⟩ := RouteQuery.findPlan_eq_ok_iff.mp hplan
  exact ⟨route, flow.serves_planOfRoute route, isFirstRoute_of_findRoute hreach hroute⟩

/-- A plan serves a route: its entries tell, in order, of active edges of the graph that lead from
the source of the flow to its destination, fit the format in which data arrives, and are given to
their first capable executor. -/
theorem findPlan_sound
    (hreach : graph.Reachable)
    (hplan : (graph.query catalog flow).findPlan = .ok plan) :
    ∃ route,
      route ≠ [] ∧
      List.Forall₂ flow.Serves plan.values route ∧
      (∀ hop ∈ route, graph.edges[hop.edge.id]? = some hop.edge) ∧
      (graph.query catalog flow).IsRoute route ∧
      route.length < graph.nodeCount := by
  obtain ⟨route, hserves, hfirst, hsource, hne⟩ := exists_firstRoute hreach hplan
  have hroute := hfirst.isRoute
  refine ⟨route, ?_, hserves, ?_, hroute, hroute.length_lt hsource⟩
  · rintro rfl
    exact hne (RouteQuery.leads_nil_iff.mp hroute.leads)
  · intro hop hhop
    exact hreach.keyed.hasEdge_snapshot_iff.mp (hroute.leads.hasEdge hop hhop)

theorem findPlan_sound_relay :
    ∃ route,
      route ≠ [] ∧
      List.Forall₂ relayFlow.Serves (relayFlow.planOfRoute relayRoute).values route ∧
      (∀ hop ∈ route, relayGraph.edges[hop.edge.id]? = some hop.edge) ∧
      (relayGraph.query relayCatalog relayFlow).IsRoute route ∧
      route.length < relayGraph.nodeCount := by
  exact findPlan_sound reachable_relayGraph findPlan_relay

/-- If the catalog answers every template or does not find it, then the answer is decided by the
nodes and the routes that there are. -/
theorem findPlan_complete
    (hreach : graph.Reachable)
    (hcatalog :
      ∀ uri, (∃ template, catalog uri = .ok template) ∨
        ∃ missing, catalog uri = .error (.notFound missing)) :
    (∀ id,
      (graph.query catalog flow).findPlan = .error (.unknownEndpoint id) ↔
        (flow.source ∉ graph.nodes ∧ id = flow.source) ∨
        (flow.source ∈ graph.nodes ∧ flow.destination ∉ graph.nodes ∧ id = flow.destination)) ∧
    ((∃ plan, (graph.query catalog flow).findPlan = .ok plan) ↔
      (flow.source ∈ graph.nodes ∧ flow.destination ∈ graph.nodes) ∧
        flow.source ≠ flow.destination ∧
        ∃ route, (graph.query catalog flow).IsRoute route) ∧
    ((graph.query catalog flow).findPlan = .error (.noRoute flow.source flow.destination) ↔
      (flow.source ∈ graph.nodes ∧ flow.destination ∈ graph.nodes) ∧
        ¬ (flow.source ≠ flow.destination ∧
          ∃ route, (graph.query catalog flow).IsRoute route)) := by
  have hlookups : ∀ error, ¬ (graph.query catalog flow).LookupFails error := by
    rintro error ⟨uri, cause, hcause, hother, -⟩
    rcases hcatalog uri with ⟨template, hfound⟩ | ⟨missing, hmissing⟩
    · have hboth := hcause.symm.trans hfound
      cases hboth
    · have hboth := hcause.symm.trans hmissing
      cases hboth
      exact hother missing rfl
  obtain ⟨hunknown, hfound, hnone⟩ :=
    (graph.query catalog flow).findRoute_eq_iff (hreach.wellFormed catalog flow) hlookups
  rw [RouteQuery.unknownEndpoint?_eq_none_iff] at hfound hnone
  refine ⟨?_, ?_, ?_⟩
  · intro id
    rw [RouteQuery.findPlan_eq_error_iff, hunknown id]
    exact RouteQuery.unknownEndpoint?_eq_some_iff
  · rw [RouteQuery.exists_findPlan_iff]
    exact hfound
  · rw [RouteQuery.findPlan_eq_error_iff]
    exact hnone

theorem findPlan_complete_relay :
    (relayGraph.query relayCatalog relayFlow).findPlan ≠
        .error (.noRoute "A" "C") ∧
      ∃ route, (relayGraph.query relayCatalog relayFlow).IsRoute route := by
  obtain ⟨-, hfound, hnone⟩ :=
    findPlan_complete reachable_relayGraph
      (TemplateShelf.catalog_answers (TemplateShelf.add ∅ passOn))
  obtain ⟨hknown, hroutes⟩ := hfound.mp ⟨_, findPlan_relay⟩
  refine ⟨?_, hroutes.2⟩
  intro habsent
  exact (hnone.mp habsent).2 hroutes

/-- The plan is that of the direct hop with the smallest edge id, or else that of the first of all
routes.  Another graph with the same nodes and edges gives the same plan, and so does a history in
which updates of different entries were made in another order. -/
theorem findPlan_first
    (hreach : graph.Reachable)
    (hplan : (graph.query catalog flow).findPlan = .ok plan) :
    (∃ route,
      List.Forall₂ flow.Serves plan.values route ∧
      (graph.query catalog flow).IsRoute route ∧
      (∀ hop, (graph.query catalog flow).IsDirect hop →
        ∃ chosen, route = [chosen] ∧ (hop = chosen ∨ chosen.edge.id < hop.edge.id)) ∧
      ((∀ hop, ¬ (graph.query catalog flow).IsDirect hop) →
        ∀ other, (graph.query catalog flow).IsRoute other →
          other = route ∨ Precedes route other)) ∧
    (∀ other : Graph, other.Reachable → graph.SameElements other →
      (other.query catalog flow).findPlan = .ok plan) ∧
    ∀ history history', Graph.empty.replay history = graph → history.Perm history' →
      (∀ change ∈ history, ∀ other ∈ history,
        change ≠ other → change.entry ≠ other.entry) →
      ((Graph.empty.replay history').query catalog flow).findPlan = .ok plan := by
  have hdecides :
      ∀ other : Graph, graph.snapshot = other.snapshot →
        (other.query catalog flow).findPlan = .ok plan := by
    intro other hsnapshot
    unfold Graph.query at hplan ⊢
    rwa [← hsnapshot]
  refine ⟨?_, ?_, ?_⟩
  · obtain ⟨route, hserves, hfirst, -, -⟩ := exists_firstRoute hreach hplan
    exact ⟨route, hserves, hfirst.isRoute, hfirst.direct, hfirst.first⟩
  · intro other hother hsame
    exact hdecides other (hsame.snapshot_eq hreach.keyed hother.keyed)
  · rintro history history' rfl hperm hentries
    have htables := Graph.tables_replay_perm Graph.empty hperm hentries
    exact hdecides _ (Graph.snapshot_eq_of_tables_eq htables)

/-- Building the relay from its last edge to its first node changes nothing. -/
theorem findPlan_first_relay :
    (∃ route,
      List.Forall₂ relayFlow.Serves (relayFlow.planOfRoute relayRoute).values route ∧
      (relayGraph.query relayCatalog relayFlow).IsRoute route ∧
      ((∀ hop, ¬ (relayGraph.query relayCatalog relayFlow).IsDirect hop) →
        ∀ other, (relayGraph.query relayCatalog relayFlow).IsRoute other →
          other = route ∨ Precedes route other)) ∧
    ((Graph.empty.replay relayHistory.reverse).query relayCatalog relayFlow).findPlan =
      .ok (relayFlow.planOfRoute relayRoute) := by
  obtain ⟨⟨route, hserves, hroute, -, hfirst⟩, -, hreorder⟩ :=
    findPlan_first reachable_relayGraph findPlan_relay
  refine ⟨⟨route, hserves, hroute, hfirst⟩, ?_⟩
  apply hreorder relayHistory relayHistory.reverse rfl (List.reverse_perm _).symm
  decide

end Correctness

end HopRouting
