import HopRouting.Proofs.Route.Correctness

/-!
# Elements that no route can use

An edge is dead if it or one of its ends is out of use or missing, or if the catalog does not find
its template.  The search passes over a dead edge without asking for anything that could fail
(`RouteQuery.hop?_of_dead`), so it does not matter whether the edge is there.  Nor does a node that
is out of use, as long as it is not an end of the flow: no hop enters or leaves it.

**Bound.**  What the removal of nodes does change is the number of nodes, and with it the bound on
the number of hops.  Every hop enters an active node that was not visited before, so a bound that
is greater than the number of such nodes is never reached (`RouteQuery.Thins.complete?_eq`).

**Result.**  `findPlan_without_dead`: without any number of these elements the search gives the same
answer, be it a plan or an error.
-/

namespace HopRouting

section Attempts

theorem firstFound_congr
    {α β ε : Type}
    {attempt attempt' : α → Except ε (Option β)}
    {items : List α}
    (hsame : ∀ item ∈ items, attempt item = attempt' item) :
    firstFound attempt items = firstFound attempt' items := by
  induction items with
  | nil =>
      rfl
  | cons item rest ih =>
      unfold firstFound
      rw [hsame item List.mem_cons_self,
        ih fun other hother => hsame other (List.mem_cons_of_mem _ hother)]

/-- Items that give nothing can be left out. -/
theorem firstFound_filter
    {α β ε : Type}
    {attempt : α → Except ε (Option β)}
    {gone : α → Bool}
    {items : List α}
    (hnothing : ∀ item ∈ items, gone item = true → attempt item = .ok none) :
    firstFound attempt (items.filter fun item => !gone item) = firstFound attempt items := by
  induction items with
  | nil =>
      rfl
  | cons item rest ih =>
      have hrest := ih fun other hother => hnothing other (List.mem_cons_of_mem _ hother)
      cases hgone : gone item with
      | true =>
          have hitem := hnothing item List.mem_cons_self hgone
          rw [List.filter_cons_of_neg (by simp [hgone]), hrest]
          simp only [firstFound, hitem]
      | false =>
          rw [List.filter_cons_of_pos (by simp [hgone])]
          unfold firstFound
          rw [hrest]

end Attempts

namespace Snapshot

/-- The snapshot without the nodes and the edges that are marked as gone. -/
def without (snapshot : Snapshot) (goneNode : String → Bool) (goneEdge : Edge → Bool) :
    Snapshot where
  nodes := snapshot.nodes.filter fun id _ => !goneNode id
  leaving := snapshot.leaving.map fun _ edges => edges.filter fun edge => !goneEdge edge

section Without

variable (snapshot : Snapshot) (goneNode : String → Bool) (goneEdge : Edge → Bool)

theorem getElem?_nodes_without
    (id : String) :
    (snapshot.without goneNode goneEdge).nodes[id]? =
      if goneNode id then none else snapshot.nodes[id]? := by
  rw [without, Std.ExtTreeMap.getElem?_filter']
  cases goneNode id with
  | true => simp
  | false => cases snapshot.nodes[id]? <;> simp [Option.filter]

theorem departures_without
    (id : String) :
    (snapshot.without goneNode goneEdge).departures id =
      (snapshot.departures id).filter fun edge => !goneEdge edge := by
  simp only [without, departures, Std.ExtTreeMap.getElem?_map]
  cases snapshot.leaving[id]? with
  | none => rfl
  | some edges => rfl

end Without

end Snapshot

namespace RouteQuery

/-- The edge is of no use to any flow, and looking at it cannot fail. -/
inductive Dead (query : RouteQuery) (edge : Edge) : Prop
  | inactive
      (hinactive : edge.active = false)
  | sourceMissing
      (hmissing : query.snapshot.nodes[edge.source]? = none)
  | destinationMissing
      (hmissing : query.snapshot.nodes[edge.destination]? = none)
  | sourceInactive {node : Node}
      (hheld : query.snapshot.nodes[edge.source]? = some node)
      (hinactive : node.active = false)
  | destinationInactive {node : Node}
      (hheld : query.snapshot.nodes[edge.destination]? = some node)
      (hinactive : node.active = false)
  | templateMissing {missing : String}
      (hmissing : query.catalog edge.templateUri = .error (.notFound missing))

/-- The id is not an end of the flow, and no active node is kept under it. -/
structure Idle (query : RouteQuery) (id : String) : Prop where
  ne_source : id ≠ query.flow.source
  ne_destination : id ≠ query.flow.destination
  inactive : ∀ node : Node, query.snapshot.nodes[id]? = some node → node.active = false

section Dead

variable {query : RouteQuery} {edge : Edge}

theorem Dead.activeEnds?_eq_none_or
    (hdead : query.Dead edge) :
    query.activeEnds? edge = none ∨
      ∃ missing, query.catalog edge.templateUri = .error (.notFound missing) := by
  by_cases htemplate : ∃ missing, query.catalog edge.templateUri = .error (.notFound missing)
  · exact Or.inr htemplate
  · left
    rw [Option.eq_none_iff_forall_ne_some]
    rintro ⟨source, destination⟩ hends
    obtain ⟨hactive, hsource, hdestination, hsourceActive, hdestinationActive⟩ :=
      activeEnds?_eq_some_iff.mp hends
    cases hdead with
    | inactive hinactive =>
        cases hactive.symm.trans hinactive
    | sourceMissing hmissing =>
        cases hsource.symm.trans hmissing
    | destinationMissing hmissing =>
        cases hdestination.symm.trans hmissing
    | sourceInactive hheld hinactive =>
        cases hsource.symm.trans hheld
        cases hsourceActive.symm.trans hinactive
    | destinationInactive hheld hinactive =>
        cases hdestination.symm.trans hheld
        cases hdestinationActive.symm.trans hinactive
    | templateMissing hmissing =>
        exact htemplate ⟨_, hmissing⟩

/-- A dead edge is passed over. -/
theorem hop?_of_dead
    (hdead : query.Dead edge)
    (format : String) :
    query.hop? edge format = .ok none := by
  unfold hop?
  cases hends : query.activeEnds? edge with
  | none =>
      rfl
  | some ends =>
      rcases hdead.activeEnds?_eq_none_or with hnone | ⟨missing, hmissing⟩
      · cases hends.symm.trans hnone
      · simp only [hmissing]

theorem attempt?_of_dead
    (hdead : query.Dead edge)
    (onward : Std.ExtTreeSet String → String → String → Except RouteError (Option (List Hop)))
    (visited : Std.ExtTreeSet String)
    (format : String) :
    query.attempt? onward visited format edge = .ok none := by
  unfold attempt?
  rw [hop?_of_dead hdead format]
  split <;> rfl

/-- The nodes of an edge over which a hop is found are there and active. -/
theorem active_destination_of_hop?
    {format : String} {hop : Hop}
    (hhop : query.hop? edge format = .ok (some hop)) :
    ∃ node : Node, query.snapshot.nodes[edge.destination]? = some node ∧ node.active = true := by
  unfold hop? at hhop
  cases hends : query.activeEnds? edge with
  | none =>
      rw [hends] at hhop
      cases hhop
  | some ends =>
      obtain ⟨-, -, hdestination, -, hactive⟩ := activeEnds?_eq_some_iff.mp hends
      exact ⟨ends.2, hdestination, hactive⟩

end Dead

/-- The thinned query lacks elements of the query, none of which is of use to it. -/
structure Thins (query thinned : RouteQuery) : Prop where
  catalog : thinned.catalog = query.catalog
  flow : thinned.flow = query.flow
  nodes :
    ∀ id : String, thinned.snapshot.nodes[id]? = query.snapshot.nodes[id]? ∨
      thinned.snapshot.nodes[id]? = none ∧ query.Idle id
  departures :
    ∀ id : String, ∃ gone : Edge → Bool,
      thinned.snapshot.departures id =
          (query.snapshot.departures id).filter (fun edge => !gone edge) ∧
        ∀ edge ∈ query.snapshot.departures id, gone edge = true → query.Dead edge

/-- The list has all active nodes that are not visited. -/
def Ahead (query : RouteQuery) (visited : Std.ExtTreeSet String) (ahead : List String) : Prop :=
  ∀ (id : String) (node : Node), query.snapshot.nodes[id]? = some node → node.active = true →
    id ∉ visited → id ∈ ahead

/-- Entering a node leaves one active node less ahead. -/
theorem Ahead.enter
    {query : RouteQuery} {visited : Std.ExtTreeSet String} {ahead : List String}
    (hahead : query.Ahead visited ahead)
    (entered : String) :
    query.Ahead (visited.insert entered) (ahead.erase entered) := by
  intro id node hheld hactive hnew
  rw [Std.ExtTreeSet.mem_insert, Std.LawfulEqOrd.compare_eq_iff_eq, not_or] at hnew
  have hmem := hahead id node hheld hactive hnew.2
  exact (List.mem_erase_of_ne fun hsame => hnew.1 hsame.symm).mpr hmem

section Thinned

variable {query thinned : RouteQuery} (hthins : query.Thins thinned)

include hthins

theorem Thins.getElem?_nodes_of_not_idle
    (id : String)
    (hneeded : ¬ query.Idle id) :
    thinned.snapshot.nodes[id]? = query.snapshot.nodes[id]? := by
  rcases hthins.nodes id with hsame | ⟨-, hidle⟩
  · exact hsame
  · exact absurd hidle hneeded

/-- The active nodes are all there. -/
theorem Thins.active_node_iff
    (id : String)
    (node : Node) :
    thinned.snapshot.nodes[id]? = some node ∧ node.active = true ↔
      query.snapshot.nodes[id]? = some node ∧ node.active = true := by
  rcases hthins.nodes id with hsame | ⟨hgone, hidle⟩
  · rw [hsame]
  · rw [hgone]
    constructor
    · rintro ⟨hnone, -⟩
      cases hnone
    · rintro ⟨hheld, hactive⟩
      cases hactive.symm.trans (hidle.inactive node hheld)

theorem Thins.activeEnds?_eq
    (edge : Edge) :
    thinned.activeEnds? edge = query.activeEnds? edge := by
  apply Option.ext
  rintro ⟨source, destination⟩
  have hsource := hthins.active_node_iff edge.source source
  have hdestination := hthins.active_node_iff edge.destination destination
  rw [activeEnds?_eq_some_iff, activeEnds?_eq_some_iff]
  tauto

theorem Thins.hop?_eq
    (edge : Edge)
    (format : String) :
    thinned.hop? edge format = query.hop? edge format := by
  unfold hop? assign? wantedFormat
  rw [hthins.activeEnds?_eq edge, hthins.catalog, hthins.flow]

/-- The search past the visited nodes is the same, if neither bound can be reached. -/
theorem Thins.complete?_eq
    {budget budget' : Nat} {visited : Std.ExtTreeSet String} {ahead : List String}
    (hahead : query.Ahead visited ahead)
    (hbudget : ahead.length < budget)
    (hbudget' : ahead.length < budget')
    (id format : String) :
    thinned.complete? budget' visited id format = query.complete? budget visited id format := by
  -- every hop uses up one of the nodes ahead together with one of the hops left
  induction budget generalizing budget' visited ahead id format with
  | zero =>
      exact absurd hbudget (Nat.not_lt_zero _)
  | succ budget ih =>
      obtain ⟨budget', rfl⟩ : ∃ left, budget' = left + 1 := ⟨budget' - 1, by omega⟩
      obtain ⟨gone, hdepartures, hdead⟩ := hthins.departures id
      have hattempt :
          ∀ edge, thinned.attempt? (thinned.complete? budget') visited format edge =
            query.attempt? (query.complete? budget) visited format edge := by
        intro edge
        unfold attempt?
        rw [hthins.hop?_eq edge format, hthins.flow]
        by_cases hvisited : visited.contains edge.destination = true
        · simp only [hvisited, if_true]
        · simp only [hvisited, Bool.false_eq_true, if_false]
          cases hhop : query.hop? edge format with
          | error cause =>
              rfl
          | ok found =>
              cases found with
              | none =>
                  rfl
              | some hop =>
                  obtain ⟨node, hheld, hactive⟩ := active_destination_of_hop? hhop
                  rw [Std.ExtTreeSet.contains_iff_mem] at hvisited
                  have hmem := hahead edge.destination node hheld hactive hvisited
                  have hlength := List.length_erase_of_mem hmem
                  have hpos := List.length_pos_of_mem hmem
                  have honward :
                      thinned.complete? budget' (visited.insert edge.destination)
                          edge.destination hop.outputFormat =
                        query.complete? budget (visited.insert edge.destination)
                          edge.destination hop.outputFormat :=
                    ih (hahead.enter edge.destination) (by omega) (by omega) _ _
                  simp only [honward]
      unfold complete?
      rw [hdepartures, firstFound_congr fun edge _ => hattempt edge]
      apply firstFound_filter
      intro edge hedge hgone
      exact attempt?_of_dead (hdead edge hedge hgone) _ _ _

theorem Thins.directHop?_eq :
    thinned.directHop? = query.directHop? := by
  obtain ⟨gone, hdepartures, hdead⟩ := hthins.departures query.flow.source
  unfold directHop?
  rw [firstHop?_eq, firstHop?_eq, hthins.flow, hdepartures, List.filter_comm,
    firstFound_congr fun edge _ => hthins.hop?_eq edge _]
  apply firstFound_filter
  intro edge hedge hgone
  exact hop?_of_dead (hdead edge (List.mem_of_mem_filter hedge) hgone) _

theorem Thins.nodes_subset
    {id : String}
    (hmem : id ∈ thinned.snapshot.nodes) :
    id ∈ query.snapshot.nodes := by
  rw [Std.ExtTreeMap.mem_iff_isSome_getElem?] at hmem ⊢
  rcases hthins.nodes id with hsame | ⟨hgone, -⟩
  · rw [← hsame]
    exact hmem
  · rw [hgone] at hmem
    cases hmem

theorem Thins.nodeCount_le :
    thinned.snapshot.nodeCount ≤ query.snapshot.nodeCount := by
  have hsub : thinned.snapshot.nodes.keys ⊆ query.snapshot.nodes.keys := by
    intro id hid
    rw [Std.ExtTreeMap.mem_keys] at hid ⊢
    exact hthins.nodes_subset hid
  have hlength := (List.subperm_of_subset Std.ExtTreeMap.nodup_keys hsub).length_le
  rwa [Std.ExtTreeMap.length_keys, Std.ExtTreeMap.length_keys] at hlength

theorem Thins.unknownEndpoint?_eq :
    thinned.unknownEndpoint? = query.unknownEndpoint? := by
  have hsource :=
    hthins.getElem?_nodes_of_not_idle query.flow.source fun hidle => hidle.ne_source rfl
  have hdestination :=
    hthins.getElem?_nodes_of_not_idle query.flow.destination fun hidle => hidle.ne_destination rfl
  unfold unknownEndpoint?
  rw [hthins.flow]
  simp only [List.find?_cons, List.find?_nil, Std.ExtTreeMap.contains_eq_isSome_getElem?, hsource,
    hdestination]

/-- The nodes that are left, the source of the flow apart, bound both searches. -/
theorem Thins.search_eq_start
    (hsource : query.flow.source ∈ query.snapshot.nodes) :
    thinned.search thinned.snapshot.nodeCount query.flow.source query.flow.inputFormat
        (.start query.flow.source) =
      query.search query.snapshot.nodeCount query.flow.source query.flow.inputFormat
        (.start query.flow.source) := by
  have hheld :=
    hthins.getElem?_nodes_of_not_idle query.flow.source fun hidle => hidle.ne_source rfl
  have hleft : query.flow.source ∈ thinned.snapshot.nodes.keys := by
    rw [Std.ExtTreeMap.mem_keys, Std.ExtTreeMap.mem_iff_isSome_getElem?, hheld,
      ← Std.ExtTreeMap.mem_iff_isSome_getElem?]
    exact hsource
  have hahead :
      query.Ahead (Trail.start query.flow.source).visited
        (thinned.snapshot.nodes.keys.erase query.flow.source) := by
    apply Ahead.enter
    intro id node hheld hactive _
    rw [Std.ExtTreeMap.mem_keys, Std.ExtTreeMap.mem_iff_isSome_getElem?,
      ((hthins.active_node_iff id node).mpr ⟨hheld, hactive⟩).1]
    rfl
  have hlength := List.length_erase_of_mem hleft
  have hpos := List.length_pos_of_mem hleft
  have hcount := hthins.nodeCount_le
  rw [Std.ExtTreeMap.length_keys] at hlength hpos
  unfold Snapshot.nodeCount at hcount ⊢
  have hcomplete :
      thinned.complete? thinned.snapshot.nodes.size (Trail.start query.flow.source).visited
          query.flow.source query.flow.inputFormat =
        query.complete? query.snapshot.nodes.size (Trail.start query.flow.source).visited
          query.flow.source query.flow.inputFormat :=
    hthins.complete?_eq hahead (by omega) (by omega) _ _
  rw [search_eq, search_eq, hcomplete]

theorem Thins.findPlan_eq :
    thinned.findPlan = query.findPlan := by
  have hroute : thinned.findRoute = query.findRoute := by
    unfold findRoute noRoute
    rw [hthins.unknownEndpoint?_eq, hthins.directHop?_eq, hthins.flow]
    cases hends : query.unknownEndpoint? with
    | some id =>
        rfl
    | none =>
        simp only [hthins.search_eq_start (unknownEndpoint?_eq_none_iff.mp hends).1]
  unfold findPlan
  rw [hroute, hthins.flow]

end Thinned

end RouteQuery

/-- Taking dead edges and inactive nodes that are no ends of the flow out of a snapshot leaves the
answer as it was: the plan, or the error. -/
theorem findPlan_without_dead
    (query : RouteQuery)
    {goneNode : String → Bool} {goneEdge : Edge → Bool}
    (hnodes : ∀ id, goneNode id = true → query.Idle id)
    (hedges :
      ∀ id, ∀ edge ∈ query.snapshot.departures id, goneEdge edge = true → query.Dead edge) :
    { query with snapshot := query.snapshot.without goneNode goneEdge }.findPlan =
      query.findPlan := by
  apply RouteQuery.Thins.findPlan_eq
  constructor
  case catalog => rfl
  case flow => rfl
  case nodes =>
    intro id
    simp only [Snapshot.getElem?_nodes_without]
    cases hgone : goneNode id with
    | true => exact Or.inr ⟨rfl, hnodes id hgone⟩
    | false => exact Or.inl rfl
  case departures =>
    intro id
    exact ⟨goneEdge, Snapshot.departures_without _ _ _ id, hedges id⟩

/-- The relay is given a node that is out of use, and edges that lead there or nowhere or that have
no template; to look for the template of one that is out of use would fail. -/
def relayRuins : List Graph.Update :=
  [.node (.add { Node.plain "X" "hdfs" with active := false }),
    .edge (.add (relayEdge "A" "X" "ruin")), .edge (.add (relayEdge "B" "Y" "ruin")),
    .edge (.add (.plain "A" "C" "ruin" "FS:///lost.template" [])),
    .edge (.add { Edge.plain "B" "C" "ruin" "ftp://pass-on" [] with active := false })]

/-- The catalog of the relay, which refuses what is no file. -/
def strictCatalog : Catalog := fun uri =>
  if uri = "ftp://pass-on" then .error (.unsupportedUri uri) else relayCatalog uri

theorem edges_relayRuins :
    (relayGraph.replay relayRuins).edges.toList.map Prod.snd =
      [relayEdge "A" "B" "fast", relayEdge "A" "B" "slow",
        .plain "A" "C" "ruin" "FS:///lost.template" [], relayEdge "A" "X" "ruin",
        relayEdge "B" "C" "fast",
        { Edge.plain "B" "C" "ruin" "ftp://pass-on" [] with active := false },
        relayEdge "B" "Y" "ruin"] := by
  rfl

theorem findPlan_without_dead_relay :
    { (relayGraph.replay relayRuins).query strictCatalog relayFlow with
        snapshot := (relayGraph.replay relayRuins).snapshot.without (· = "X") (·.name = "ruin")
      }.findPlan =
      ((relayGraph.replay relayRuins).query strictCatalog relayFlow).findPlan ∧
    ((relayGraph.replay relayRuins).query strictCatalog relayFlow).findPlan =
      .ok (relayFlow.planOfRoute relayRoute) := by
  refine ⟨?_, rfl⟩
  apply findPlan_without_dead
  · intro id hgone
    obtain rfl : id = "X" := of_decide_eq_true hgone
    refine ⟨by decide, by decide, ?_⟩
    intro node hheld
    cases hheld
    rfl
  · intro id edge hedge hgone
    have hmem : edge ∈ (relayGraph.replay relayRuins).snapshot.departures id := hedge
    rw [Graph.departures_snapshot, edges_relayRuins] at hmem
    simp only [List.mem_filter, List.mem_cons, List.not_mem_nil, or_false] at hmem
    rcases hmem.1 with rfl | rfl | rfl | rfl | rfl | rfl | rfl
    · cases hgone
    · cases hgone
    · exact .templateMissing rfl
    · exact .destinationInactive rfl rfl
    · cases hgone
    · exact .inactive rfl
    · exact .destinationMissing rfl

end HopRouting
