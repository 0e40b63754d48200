import Mathlib.Data.List.Nodup
import HopRouting.Proofs.Route.Correctness

/-!
# The jobs of a plan

Three layers make the configuration of a job: the defaults of the template, the settings of the
flow over them, and on top of both what is stamped for the hop.  `Flow.Describes` reads the layers
back key by key, so it leaves nothing of the configuration open.

**One job.**  `Flow.describes_jobOfHop`: the job made for a hop describes it, whatever the template
and the flow set, the stamped keys included.

**The whole plan.**  What is stamped for the hops fits together because the hops do: a route leads
from the source of the flow to its destination (`Plan.Connects`), and it takes no edge twice
(`RouteQuery.IsRoute.nodup_edgeIds`).

**Result.**  `findPlan_jobs`: the jobs of every plan describe its route, and each of them waits for
exactly the one before it.
-/

namespace HopRouting

namespace Dag

variable {α : Type}

/-- Every value waits for exactly the value before it. -/
def IsChain (dag : Dag α) : Prop :=
  ∀ position node, dag.get? position = some node →
    node.parents = (List.range dag.size).filter (fun other => other + 1 = position) ∧
    node.children = (List.range dag.size).filter (fun other => other = position + 1)

theorem filter_range_eq
    (count position : Nat) :
    (List.range count).filter (fun other => other = position) =
      if position < count then [position] else [] := by
  induction count with
  | zero =>
      rfl
  | succ count ih =>
      rw [List.range_succ, List.filter_append, ih]
      by_cases hbelow : position < count
      · have hne : count ≠ position := by omega
        simp [hbelow, hne, Nat.lt_succ_of_lt hbelow]
      · by_cases hlast : count = position
        · simp [hlast]
        · have hbeyond : ¬ position < count + 1 := by omega
          simp [hbelow, hlast, hbeyond]

theorem isChain_chain
    (values : List α) :
    (chain values).IsChain := by
  intro position node hnode
  have hsize : (chain values).size = values.length := List.length_mapIdx
  rw [hsize]
  simp only [get?, chain, List.getElem?_mapIdx, Option.map_eq_some_iff] at hnode
  obtain ⟨value, hvalue, rfl⟩ := hnode
  have hbelow : position < values.length := (List.getElem?_eq_some_iff.mp hvalue).1
  refine ⟨?_, ?_⟩
  · cases position with
    | zero =>
        simp [chainNode]
    | succ before =>
        simp only [Nat.add_right_cancel_iff, filter_range_eq]
        simp [chainNode, Nat.lt_of_succ_lt hbelow]
  · rw [filter_range_eq]
    rfl

end Dag

namespace Flow

/-- The keys that are stamped. -/
def stampedKeys : List String :=
  [Key.jobName, Key.jobEdge, Key.jobHopIndex, Key.jobSource, Key.jobDestination]

/-- What the job for the hop at a position of a route tells.  Keys that are not stamped have the
value of the flow, or else that of the template. -/
structure Describes (flow : Flow) (index : Nat) (hop : Hop) (job : Job) : Prop where
  uri : job.uri = flow.group ++ "/" ++ flow.name ++ "/" ++ hop.edge.id
  templateUri : job.templateUri = hop.edge.templateUri
  description : job.description = hop.template.description
  name :
    job.config[Key.jobName]? = some (flow.group ++ "_" ++ flow.name ++ "_" ++ hop.edge.id)
  edge : job.config[Key.jobEdge]? = some hop.edge.id
  position : job.config[Key.jobHopIndex]? = some (toString index)
  source : job.config[Key.jobSource]? = some hop.edge.source
  destination : job.config[Key.jobDestination]? = some hop.edge.destination
  others :
    ∀ key, key ∉ stampedKeys →
      job.config[key]? = (flow.config[key]?).or hop.template.config[key]?

theorem getElem?_config_of_not_stamped
    (flow : Flow)
    (index : Nat)
    (hop : Hop)
    {key : String}
    (hplain : key ∉ stampedKeys) :
    (flow.jobOfHop index hop).job.config[key]? =
      (flow.config[key]?).or hop.template.config[key]? := by
  have hstamp : (flow.stamp index hop.edge)[key]? = none := by
    apply Std.ExtTreeMap.getElem?_ofList_of_contains_eq_false
    simpa [stampedKeys] using hplain
  unfold jobOfHop PropertySet.merge
  rw [Std.ExtTreeMap.getElem?_union, hstamp, Option.none_or, Std.ExtTreeMap.getElem?_union]

theorem describes_jobOfHop
    (flow : Flow)
    (index : Nat)
    (hop : Hop) :
    flow.Describes index hop (flow.jobOfHop index hop).job := by
  obtain ⟨hname, hedge, hposition, hsource, hdestination⟩ := flow.getElem?_stamp index hop.edge
  exact
    { uri := rfl
      templateUri := rfl
      description := rfl
      name := flow.getElem?_config_jobOfHop index hop hname
      edge := flow.getElem?_config_jobOfHop index hop hedge
      position := flow.getElem?_config_jobOfHop index hop hposition
      source := flow.getElem?_config_jobOfHop index hop hsource
      destination := flow.getElem?_config_jobOfHop index hop hdestination
      others := fun _ hplain => flow.getElem?_config_of_not_stamped index hop hplain }

theorem getElem?_values_planOfRoute
    (flow : Flow)
    (route : List Hop)
    (index : Nat) :
    (flow.planOfRoute route).values[index]? = route[index]?.map (flow.jobOfHop index) := by
  rw [planOfRoute, Dag.values_chain, List.getElem?_mapIdx]

theorem uris_planOfRoute
    (flow : Flow)
    (route : List Hop) :
    (flow.planOfRoute route).values.map (·.job.uri) = (RouteQuery.edgeIds route).map
      (fun id => flow.group ++ "/" ++ flow.name ++ "/" ++ id) := by
  apply List.ext_getElem?
  intro index
  rw [List.getElem?_map, getElem?_values_planOfRoute, RouteQuery.edgeIds, List.getElem?_map,
    List.getElem?_map]
  cases route[index]? with
  | none => rfl
  | some hop => rfl

end Flow

namespace RouteQuery

section Routes

variable {query : RouteQuery}

theorem Leads.source_of_head?
    {id format finish : String} {hops : List Hop} {first : Hop}
    (hleads : query.Leads id format hops finish)
    (hfirst : hops.head? = some first) :
    first.edge.source = id := by
  cases hleads with
  | here =>
      cases hfirst
  | step hedge hsource husable hrest =>
      cases hfirst
      exact hsource

theorem Leads.destination_of_getLast?
    {id format finish : String} {hops : List Hop} {last : Hop}
    (hleads : query.Leads id format hops finish)
    (hlast : hops.getLast? = some last) :
    last.edge.destination = finish := by
  induction hleads with
  | here =>
      cases hlast
  | @step id format finish hop rest hedge hsource husable hrest ih =>
      cases rest with
      | nil =>
          cases hlast
          exact leads_nil_iff.mp hrest
      | cons next rest =>
          rw [List.getLast?_cons_cons] at hlast
          exact ih hlast

theorem Leads.template_found
    {id format finish : String} {hops : List Hop}
    (hleads : query.Leads id format hops finish) :
    ∀ hop ∈ hops, query.catalog hop.edge.templateUri = .ok hop.template := by
  induction hleads with
  | here =>
      intro hop hhop
      cases hhop
  | step hedge hsource husable hrest ih =>
      intro hop hhop
      rcases List.mem_cons.mp hhop with rfl | hhop
      · obtain ⟨source, destination, hfits⟩ := husable
        exact hfits.template_found
      · exact ih hop hhop

/-- Each hop leaves the node that the one before it enters. -/
theorem Leads.joins
    {id format finish : String} {hops : List Hop} {index : Nat} {hop next : Hop}
    (hleads : query.Leads id format hops finish)
    (hhop : hops[index]? = some hop)
    (hnext : hops[index + 1]? = some next) :
    next.edge.source = hop.edge.destination := by
  induction hleads generalizing index with
  | here =>
      cases hhop
  | @step id format finish first rest hedge hsource husable hrest ih =>
      rw [List.getElem?_cons_succ] at hnext
      cases index with
      | zero =>
          cases hhop
          apply hrest.source_of_head?
          rw [List.head?_eq_getElem?]
          exact hnext
      | succ index =>
          rw [List.getElem?_cons_succ] at hhop
          exact ih hhop hnext

end Routes

end RouteQuery

/-- The jobs lead from one node to another, each from where the one before it has led. -/
structure Plan.Connects (plan : Plan) (source destination : String) : Prop where
  first :
    ∃ entry, plan.values.head? = some entry ∧ entry.job.config[Key.jobSource]? = some source
  last :
    ∃ entry, plan.values.getLast? = some entry ∧
      entry.job.config[Key.jobDestination]? = some destination
  joined :
    ∀ index entry next, plan.values[index]? = some entry → plan.values[index + 1]? = some next →
      ∃ id, entry.job.config[Key.jobDestination]? = some id ∧
        next.job.config[Key.jobSource]? = some id

theorem Flow.connects_planOfRoute
    {query : RouteQuery} {id format finish : String} {route : List Hop}
    (hleads : query.Leads id format route finish)
    (hsome : route ≠ [])
    (flow : Flow) :
    (flow.planOfRoute route).Connects id finish := by
  have hentry :
      ∀ {index : Nat} {entry : PlannedJob},
        (flow.planOfRoute route).values[index]? = some entry →
          ∃ hop, route[index]? = some hop ∧ flow.Describes index hop entry.job := by
    intro index entry hvalue
    rw [getElem?_values_planOfRoute, Option.map_eq_some_iff] at hvalue
    obtain ⟨hop, hhop, rfl⟩ := hvalue
    exact ⟨hop, hhop, flow.describes_jobOfHop index hop⟩
  have hlength : (flow.planOfRoute route).values.length = route.length := by
    rw [planOfRoute, Dag.values_chain, List.length_mapIdx]
  have hvalues : (flow.planOfRoute route).values ≠ [] := by
    rw [← List.length_pos_iff, hlength]
    exact List.length_pos_iff.mpr hsome
  constructor
  · refine ⟨_, List.head?_eq_some_head hvalues, ?_⟩
    have hhead := List.head?_eq_some_head hvalues
    rw [List.head?_eq_getElem?] at hhead
    obtain ⟨hop, hhop, hdescribes⟩ := hentry hhead
    rw [← List.head?_eq_getElem?] at hhop
    rw [hdescribes.source, hleads.source_of_head? hhop]
  · refine ⟨_, List.getLast?_eq_some_getLast hvalues, ?_⟩
    have hlast := List.getLast?_eq_some_getLast hvalues
    rw [List.getLast?_eq_getElem?] at hlast
    obtain ⟨hop, hhop, hdescribes⟩ := hentry hlast
    rw [hlength, ← List.getLast?_eq_getElem?] at hhop
    rw [hdescribes.destination, hleads.destination_of_getLast? hhop]
  · intro index entry next hvalue hvalue'
    obtain ⟨hop, hhop, hdescribes⟩ := hentry hvalue
    obtain ⟨hop', hhop', hdescribes'⟩ := hentry hvalue'
    refine ⟨hop.edge.destination, hdescribes.destination, ?_⟩
    rw [hdescribes'.source, hleads.joins hhop hhop']

/-- A route takes no edge twice, because it enters no node twice. -/
theorem RouteQuery.IsRoute.nodup_edgeIds
    {query : RouteQuery} {route : List Hop}
    (hroute : query.IsRoute route)
    (hids :
      ∀ edge other : Edge, query.snapshot.HasEdge edge → query.snapshot.HasEdge other →
        edge.id = other.id → edge = other) :
    (edgeIds route).Nodup := by
  have hentered : (entered route).Nodup := (List.nodup_cons.mp hroute.simple).2
  unfold edgeIds
  unfold entered at hentered
  rw [List.Nodup, List.pairwise_map] at hentered ⊢
  apply hentered.imp_of_mem
  intro hop other hhop hother hne hsame
  apply hne
  rw [hids _ _ (hroute.leads.hasEdge hop hhop) (hroute.leads.hasEdge other hother) hsame]

section Jobs

variable {graph : Graph} {catalog : Catalog} {flow : Flow} {plan : Plan}

/-- The jobs of a plan describe the hops of a route for the flow, whatever the templates and the
flow set.  So the jobs lead from the source of the flow to its destination; their URIs differ; and
each of them waits for exactly the one before it. -/
theorem findPlan_jobs
    (hreach : graph.Reachable)
    (hplan : (graph.query catalog flow).findPlan = .ok plan) :
    ∃ route,
      (graph.query catalog flow).IsRoute route ∧
      plan.size = route.length ∧
      (∀ index hop, route[index]? = some hop →
        catalog hop.edge.templateUri = .ok hop.template ∧
        ∃ entry, plan.values[index]? = some entry ∧ entry.executor = hop.executor ∧
          flow.Describes index hop entry.job) ∧
      plan.Connects flow.source flow.destination ∧
      (plan.values.map (·.job.uri)).Nodup ∧
      plan.IsChain := by
  obtain ⟨route, hfound, rfl⟩ := RouteQuery.findPlan_eq_ok_iff.mp hplan
  obtain ⟨hfirst, -, hne⟩ := isFirstRoute_of_findRoute hreach hfound
  have hroute := hfirst.isRoute
  have hsome : route ≠ [] := by
    rintro rfl
    exact hne (RouteQuery.leads_nil_iff.mp hroute.leads)
  refine ⟨route, hroute, ?_, ?_, flow.connects_planOfRoute hroute.leads hsome, ?_, ?_⟩
  · exact List.length_mapIdx.trans List.length_mapIdx
  · intro index hop hhop
    refine ⟨?_, flow.jobOfHop index hop, ?_, rfl, flow.describes_jobOfHop index hop⟩
    · exact hroute.leads.template_found hop (List.mem_of_getElem? hhop)
    · rw [Flow.getElem?_values_planOfRoute, hhop]
      rfl
  · rw [Flow.uris_planOfRoute]
    apply List.Nodup.map
    · intro id other hsame
      exact (String.append_right_inj _).mp hsame
    · apply hroute.nodup_edgeIds
      intro edge other hedge hother hsame
      have hheld := hreach.keyed.hasEdge_snapshot_iff.mp hedge
      have hheld' := hreach.keyed.hasEdge_snapshot_iff.mp hother
      rw [hsame, hheld'] at hheld
      exact (Option.some.inj hheld).symm
  · exact Dag.isChain_chain _

/-- A template that leaves data alone as well, and sets some keys of its jobs. -/
def loudTemplate : Template :=
  { passOn with
    config := .ofList [("queue", "low"), ("retries", "1"), (Key.jobName, "copy")] }

def loudCatalog : Catalog := TemplateShelf.catalog (TemplateShelf.add ∅ loudTemplate)

/-- A flow over the relay that sets keys which the template sets or which are stamped. -/
def loudFlow : Flow :=
  { relayFlow with
    config := .ofList [("retries", "3"), (Key.jobSource, "C"), (Key.jobHopIndex, "first")] }

def loudRoute : List Hop :=
  relayRoute.map fun hop => { hop with template := loudTemplate }

theorem findPlan_jobs_relay :
    (loudFlow.planOfRoute loudRoute).values.map (fun entry => entry.job.config.toList) =
      [[("flow.edge.id", "A_B_fast"), ("job.destination.node", "B"), ("job.hop.index", "0"),
          ("job.name", "relays_relay_A_B_fast"), ("job.source.node", "A"), ("queue", "low"),
          ("retries", "3")],
        [("flow.edge.id", "B_C_fast"), ("job.destination.node", "C"), ("job.hop.index", "1"),
          ("job.name", "relays_relay_B_C_fast"), ("job.source.node", "B"), ("queue", "low"),
          ("retries", "3")]] ∧
    ∃ route,
      (relayGraph.query loudCatalog loudFlow).IsRoute route ∧
      (loudFlow.planOfRoute loudRoute).size = route.length ∧
      (∀ index hop, route[index]? = some hop →
        loudCatalog hop.edge.templateUri = .ok hop.template ∧
        ∃ entry, (loudFlow.planOfRoute loudRoute).values[index]? = some entry ∧
          entry.executor = hop.executor ∧ loudFlow.Describes index hop entry.job) ∧
      (loudFlow.planOfRoute loudRoute).Connects "A" "C" ∧
      ((loudFlow.planOfRoute loudRoute).values.map (·.job.uri)).Nodup ∧
      (loudFlow.planOfRoute loudRoute).IsChain := by
  have hplan :
      (relayGraph.query loudCatalog loudFlow).findPlan = .ok (loudFlow.planOfRoute loudRoute) := by
    rfl
  exact ⟨by decide +kernel, findPlan_jobs reachable_relayGraph hplan⟩

end Jobs

end HopRouting
