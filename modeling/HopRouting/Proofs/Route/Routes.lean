import HopRouting.Route.Planner
import HopRouting.Proofs.Topology.Snapshots

/-!
# Routes

This module says what a route is, without saying how one is found.

**Hops.**  `RouteQuery.Usable` lists all that is asked of a hop for data that arrives in a format:
activity, presence of both nodes, the template, the platforms and formats, and the executor, which
is the first capable one.  `hop?_eq_some_iff` shows that the check made by the search is exactly
that, on snapshots in which nodes are kept under their own ids.

**Routes.**  `RouteQuery.Leads` chains usable hops and threads the format of the data through
them.  A route leads from the source of the flow to its destination and visits no node twice.
-/

namespace HopRouting

/-- The first of the executors that has a capability for what is required. -/
def Executor.IsFirstFor
    (executor : Executor)
    (required : Capability)
    (executors : List Executor) : Prop :=
  ∃ earlier later : List Executor,
    executors = earlier ++ executor :: later ∧
    (∃ capability ∈ executor.capabilities, capability.covers required = true) ∧
    ∀ other ∈ earlier, ∀ capability ∈ other.capabilities,
      capability.covers required = false

theorem Edge.firstCapable?_eq_some_iff
    (edge : Edge)
    (required : Capability)
    (executor : Executor) :
    edge.firstCapable? required = some executor ↔
      executor.IsFirstFor required edge.executors := by
  unfold Edge.firstCapable?
  rw [List.find?_eq_some_iff_append]
  constructor
  · rintro ⟨hsupports, earlier, later, hsplit, hearlier⟩
    refine ⟨earlier, later, hsplit, ?_, ?_⟩
    · simpa [Executor.supports] using hsupports
    · intro other hother capability hcapability
      have hnot := hearlier other hother
      simp only [Executor.supports, Bool.not_eq_true', List.any_eq_false] at hnot
      exact Bool.eq_false_iff.mpr (hnot capability hcapability)
  · rintro ⟨earlier, later, hsplit, hcovers, hearlier⟩
    refine ⟨?_, earlier, later, hsplit, ?_⟩
    · simpa [Executor.supports] using hcovers
    · intro other hother
      simp only [Executor.supports, Bool.not_eq_true', List.any_eq_false]
      intro capability hcapability
      rw [hearlier other hother capability hcapability]
      exact Bool.false_ne_true

namespace RouteQuery

/-- The format asked for at a node: that of the flow at its destination, and any elsewhere. -/
def formatAskedAt (query : RouteQuery) (id : String) : String :=
  if id = query.flow.destination then query.flow.outputFormat else Key.any

/-- A hop between two nodes fits data that arrives in a format. -/
structure Fits
    (query : RouteQuery)
    (format : String)
    (source destination : Node)
    (hop : Hop) : Prop where
  edge_active : hop.edge.active = true
  source_present : query.snapshot.nodes[hop.edge.source]? = some source
  destination_present : query.snapshot.nodes[hop.edge.destination]? = some destination
  source_active : source.active = true
  destination_active : destination.active = true
  template_found : query.catalog hop.edge.templateUri = .ok hop.template
  supported :
    hop.template.supportsHop ⟨source.platform, format⟩
      ⟨destination.platform, query.formatAskedAt hop.edge.destination⟩ = true
  executor_first :
    hop.executor.IsFirstFor ⟨source.platform, destination.platform⟩ hop.edge.executors
  format_after :
    hop.outputFormat =
      if hop.template.output.format = Key.any then format else hop.template.output.format

/-- A hop can be taken with data that arrives in a format. -/
def Usable (query : RouteQuery) (format : String) (hop : Hop) : Prop :=
  ∃ source destination : Node, query.Fits format source destination hop

section Hops

variable {query : RouteQuery}

theorem activeEnds?_eq_some_iff
    {edge : Edge} {source destination : Node} :
    query.activeEnds? edge = some (source, destination) ↔
      edge.active = true ∧
      query.snapshot.nodes[edge.source]? = some source ∧
      query.snapshot.nodes[edge.destination]? = some destination ∧
      source.active = true ∧
      destination.active = true := by
  unfold activeEnds?
  cases edge.active with
  | false =>
      simp
  | true =>
      cases query.snapshot.nodes[edge.source]? with
      | none =>
          simp
      | some held =>
          cases query.snapshot.nodes[edge.destination]? with
          | none =>
              simp
          | some held' =>
              by_cases hactive : (held.active && held'.active) = true
              · simp only [Bool.not_true, Bool.false_eq_true, if_false, hactive, if_true,
                  Option.some.injEq, Prod.mk.injEq, true_and]
                rw [Bool.and_eq_true] at hactive
                constructor
                · rintro ⟨rfl, rfl⟩
                  exact ⟨rfl, rfl, hactive⟩
                · rintro ⟨rfl, rfl, -⟩
                  exact ⟨rfl, rfl⟩
              · simp only [Bool.not_true, Bool.false_eq_true, if_false, hactive,
                  Option.some.injEq, true_and]
                rw [Bool.and_eq_true] at hactive
                constructor
                · intro habsurd
                  cases habsurd
                · rintro ⟨rfl, rfl, hends⟩
                  exact absurd hends hactive

theorem assign?_eq_some_iff
    {edge : Edge} {format : String} {source destination : Node} {template : Template} {hop : Hop} :
    query.assign? edge format source destination template = some hop ↔
      template.supportsHop ⟨source.platform, format⟩
        ⟨destination.platform, query.wantedFormat destination⟩ = true ∧
      ∃ executor : Executor,
        executor.IsFirstFor ⟨source.platform, destination.platform⟩ edge.executors ∧
        hop = ⟨edge, template, executor, template.outputFormat format⟩ := by
  unfold assign?
  split
  · next hsupported =>
      simp only [Option.map_eq_some_iff, Edge.firstCapable?_eq_some_iff, hsupported, true_and]
      constructor
      · rintro ⟨executor, hfirst, rfl⟩
        exact ⟨executor, hfirst, rfl⟩
      · rintro ⟨executor, hfirst, rfl⟩
        exact ⟨executor, hfirst, rfl⟩
  · next hsupported =>
      simp [hsupported]

theorem wantedFormat_eq
    (hwf : query.snapshot.WellFormed)
    {id : String} {node : Node}
    (hheld : query.snapshot.nodes[id]? = some node) :
    query.wantedFormat node = query.formatAskedAt id := by
  unfold wantedFormat formatAskedAt
  rw [hwf.node_id id node hheld]

theorem edge_eq_of_hop?_eq_some
    {edge : Edge} {format : String} {hop : Hop}
    (hfound : query.hop? edge format = .ok (some hop)) :
    hop.edge = edge := by
  unfold hop? at hfound
  split at hfound
  · cases hfound
  · split at hfound
    · obtain ⟨-, executor, -, rfl⟩ := assign?_eq_some_iff.mp (Except.ok.inj hfound)
      rfl
    · cases hfound
    · cases hfound

theorem destination_mem_of_hop?_eq_some
    {edge : Edge} {format : String} {hop : Hop}
    (hfound : query.hop? edge format = .ok (some hop)) :
    edge.destination ∈ query.snapshot.nodes := by
  unfold hop? at hfound
  split at hfound
  · cases hfound
  · next source destination hends =>
      obtain ⟨-, -, hdestination, -⟩ := activeEnds?_eq_some_iff.mp hends
      exact Std.ExtTreeMap.mem_iff_isSome_getElem?.mpr (by rw [hdestination]; rfl)

/-- The check made by the search finds exactly the usable hop over the edge. -/
theorem hop?_eq_some_iff
    (hwf : query.snapshot.WellFormed)
    {edge : Edge} {format : String} {hop : Hop} :
    query.hop? edge format = .ok (some hop) ↔ hop.edge = edge ∧ query.Usable format hop := by
  constructor
  · intro hfound
    unfold hop? at hfound
    split at hfound
    · cases hfound
    · next source destination hends =>
        obtain ⟨hactive, hsource, hdestination, hactives, hactived⟩ :=
          activeEnds?_eq_some_iff.mp hends
        split at hfound
        · next template htemplate =>
            obtain ⟨hsupported, executor, hfirst, rfl⟩ :=
              assign?_eq_some_iff.mp (Except.ok.inj hfound)
            rw [wantedFormat_eq hwf hdestination] at hsupported
            exact ⟨rfl, source, destination,
              { edge_active := hactive
                source_present := hsource
                destination_present := hdestination
                source_active := hactives
                destination_active := hactived
                template_found := htemplate
                supported := hsupported
                executor_first := hfirst
                format_after := rfl }⟩
        · cases hfound
        · cases hfound
  · rintro ⟨rfl, source, destination, hfits⟩
    have hends : query.activeEnds? hop.edge = some (source, destination) :=
      activeEnds?_eq_some_iff.mpr ⟨hfits.edge_active, hfits.source_present,
        hfits.destination_present, hfits.source_active, hfits.destination_active⟩
    unfold hop?
    rw [hends]
    simp only [hfits.template_found, Except.ok.injEq]
    rw [assign?_eq_some_iff, wantedFormat_eq hwf hfits.destination_present]
    refine ⟨hfits.supported, hop.executor, hfits.executor_first, ?_⟩
    cases hop
    simp only [Hop.mk.injEq, true_and]
    exact hfits.format_after

theorem not_usable_of_hop?_eq_none
    (hwf : query.snapshot.WellFormed)
    {format : String} {hop : Hop}
    (hnone : query.hop? hop.edge format = .ok none) :
    ¬ query.Usable format hop := by
  intro husable
  have hfound := (hop?_eq_some_iff hwf).mpr ⟨rfl, husable⟩
  rw [hnone] at hfound
  cases hfound

/-- The edge and the format of the data determine the hop. -/
theorem Usable.eq_of_edge_eq
    (hwf : query.snapshot.WellFormed)
    {format : String} {hop other : Hop}
    (hhop : query.Usable format hop)
    (hother : query.Usable format other)
    (hedge : hop.edge = other.edge) :
    hop = other := by
  have hfound := (hop?_eq_some_iff hwf).mpr ⟨hedge, hhop⟩
  have hfound' := (hop?_eq_some_iff hwf).mpr ⟨rfl, hother⟩
  rw [hfound] at hfound'
  exact Option.some.inj (Except.ok.inj hfound')

theorem Usable.destination_mem
    {format : String} {hop : Hop}
    (husable : query.Usable format hop) :
    hop.edge.destination ∈ query.snapshot.nodes := by
  obtain ⟨source, destination, hfits⟩ := husable
  rw [Std.ExtTreeMap.mem_iff_isSome_getElem?, hfits.destination_present]
  rfl

end Hops

/-- Usable hops that lead, one after the other, from a node where data is in a format to another
node. -/
inductive Leads (query : RouteQuery) : String → String → List Hop → String → Prop
  | here {id format : String} :
      Leads query id format [] id
  | step {id format finish : String} {hop : Hop} {rest : List Hop}
      (hedge : query.snapshot.HasEdge hop.edge)
      (hsource : hop.edge.source = id)
      (husable : query.Usable format hop)
      (hrest : Leads query hop.edge.destination hop.outputFormat rest finish) :
      Leads query id format (hop :: rest) finish

/-- The nodes that hops enter, in order. -/
def entered (hops : List Hop) : List String :=
  hops.map (·.edge.destination)

/-- The ids of the edges of a route, in order. -/
def edgeIds (hops : List Hop) : List String :=
  hops.map (·.edge.id)

@[simp] theorem entered_nil :
    entered [] = [] := by
  rfl

@[simp] theorem entered_cons
    (hop : Hop)
    (rest : List Hop) :
    entered (hop :: rest) = hop.edge.destination :: entered rest := by
  rfl

@[simp] theorem entered_append
    (hops rest : List Hop) :
    entered (hops ++ rest) = entered hops ++ entered rest :=
  List.map_append

/-- A route for the flow: usable hops from its source to its destination that visit no node
twice. -/
structure IsRoute (query : RouteQuery) (route : List Hop) : Prop where
  leads :
    query.Leads query.flow.source query.flow.inputFormat route query.flow.destination
  simple : (query.flow.source :: entered route).Nodup

/-- A hop that leads straight from the source of the flow to its destination. -/
structure IsDirect (query : RouteQuery) (hop : Hop) : Prop where
  edge : query.snapshot.HasEdge hop.edge
  source : hop.edge.source = query.flow.source
  destination : hop.edge.destination = query.flow.destination
  usable : query.Usable query.flow.inputFormat hop

section Routes

variable {query : RouteQuery}

@[simp] theorem leads_nil_iff
    {id format finish : String} :
    query.Leads id format [] finish ↔ id = finish := by
  constructor
  · intro hleads
    cases hleads
    rfl
  · rintro rfl
    exact Leads.here

theorem Leads.hasEdge
    {id format finish : String} {hops : List Hop}
    (hleads : query.Leads id format hops finish) :
    ∀ hop ∈ hops, query.snapshot.HasEdge hop.edge := by
  induction hleads with
  | here =>
      intro hop hhop
      cases hhop
  | step hedge hsource husable hrest ih =>
      intro hop hhop
      rcases List.mem_cons.mp hhop with rfl | hhop
      · exact hedge
      · exact ih hop hhop

theorem Leads.entered_subset
    {id format finish : String} {hops : List Hop}
    (hleads : query.Leads id format hops finish) :
    ∀ node ∈ entered hops, node ∈ query.snapshot.nodes := by
  induction hleads with
  | here =>
      intro node hnode
      cases hnode
  | step hedge hsource husable hrest ih =>
      intro node hnode
      rcases List.mem_cons.mp hnode with rfl | hnode
      · exact husable.destination_mem
      · exact ih node hnode

theorem Leads.finish_mem_entered
    {id format finish : String} {hops : List Hop}
    (hleads : query.Leads id format hops finish)
    (hne : id ≠ finish) :
    finish ∈ entered hops := by
  induction hleads with
  | here =>
      exact absurd rfl hne
  | @step id format finish hop rest hedge hsource husable hrest ih =>
      by_cases hlast : hop.edge.destination = finish
      · rw [entered_cons, hlast]
        exact List.mem_cons_self
      · exact List.mem_cons_of_mem _ (ih hlast)

theorem Leads.eq_nil_of_not_mem
    {id format : String} {hops : List Hop}
    (hleads : query.Leads id format hops id)
    (hnot : id ∉ entered hops) :
    hops = [] := by
  cases hleads with
  | here =>
      rfl
  | @step _ _ _ hop rest hedge hsource husable hrest =>
      exfalso
      apply hnot
      by_cases hlast : hop.edge.destination = id
      · rw [entered_cons, hlast]
        exact List.mem_cons_self
      · exact List.mem_cons_of_mem _ (hrest.finish_mem_entered hlast)

/-- A snapshot has more nodes than the hops that enter different ones of them from one more. -/
theorem length_lt_nodeCount
    {id : String} {hops : List Hop}
    (hsimple : (id :: entered hops).Nodup)
    (hpresent : ∀ node ∈ id :: entered hops, node ∈ query.snapshot.nodes) :
    hops.length < query.snapshot.nodeCount := by
  have hsub : id :: entered hops ⊆ query.snapshot.nodes.keys := by
    intro node hnode
    rw [Std.ExtTreeMap.mem_keys]
    exact hpresent node hnode
  have hlength := (List.subperm_of_subset hsimple hsub).length_le
  rw [Std.ExtTreeMap.length_keys, List.length_cons, entered, List.length_map] at hlength
  exact hlength

theorem IsRoute.length_lt
    {route : List Hop}
    (hroute : query.IsRoute route)
    (hsource : query.flow.source ∈ query.snapshot.nodes) :
    route.length < query.snapshot.nodeCount := by
  apply length_lt_nodeCount hroute.simple
  intro node hnode
  rcases List.mem_cons.mp hnode with rfl | hnode
  · exact hsource
  · exact hroute.leads.entered_subset node hnode

/-- Between different nodes, a direct hop is a route of its own. -/
theorem isDirect_iff_isRoute
    (hne : query.flow.source ≠ query.flow.destination)
    {hop : Hop} :
    query.IsDirect hop ↔ query.IsRoute [hop] := by
  constructor
  · intro hdirect
    constructor
    · apply Leads.step hdirect.edge hdirect.source hdirect.usable
      rw [hdirect.destination]
      exact Leads.here
    · simpa [entered, hdirect.destination] using hne
  · intro hroute
    cases hroute.leads with
    | step hedge hsource husable hrest =>
        exact ⟨hedge, hsource, leads_nil_iff.mp hrest, husable⟩

end Routes

end RouteQuery

end HopRouting
