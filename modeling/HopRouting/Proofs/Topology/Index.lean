import Mathlib.Data.List.Nodup
import HopRouting.Proofs.Topology.Snapshots

/-!
# The index of departures

Beside its two tables the graph keeps an index: for every node that some edge leaves, the ids of
the edges that do.  Adding, replacing and removing an edge maintain the index each in its own way,
and a replaced edge may leave another node than before.

**Invariant.**  `Indexed` says that the index lists an id for a node exactly if the edge kept under
that id leaves the node, and that it holds no empty set.  Every update keeps it.

**Result.**  `replay_refines_tables`: whatever the history, the graph answers as the two tables
alone would.  Departures are read from the index in the graph and regrouped from the table of edges
in a snapshot; both give the edges that leave the node, by increasing id.
-/

namespace HopRouting

/-- Lists in which an order leads from each item to all later ones are decided by their items. -/
theorem eq_of_pairwise_of_mem_iff
    {α : Type} {R : α → α → Prop} {items items' : List α}
    (hirrefl : ∀ item, ¬ R item item)
    (hasymm : ∀ item other, R item other → ¬ R other item)
    (hsorted : items.Pairwise R)
    (hsorted' : items'.Pairwise R)
    (hmem : ∀ item, item ∈ items ↔ item ∈ items') :
    items = items' := by
  have hnodup : ∀ {list : List α}, list.Pairwise R → list.Nodup := by
    intro list hlist
    refine hlist.imp ?_
    rintro item _ hrel rfl
    exact hirrefl item hrel
  have hperm : items.Perm items' :=
    (List.perm_ext_iff_of_nodup (hnodup hsorted) (hnodup hsorted')).mpr hmem
  refine hperm.eq_of_pairwise ?_ hsorted hsorted'
  intro item other _ _ hrel hback
  exact absurd hback (hasymm item other hrel)

theorem Snapshot.WellFormed.nodup_departures
    {snapshot : Snapshot}
    (hwf : snapshot.WellFormed)
    (id : String) :
    (snapshot.departures id).Nodup := by
  refine (hwf.sorted id).imp ?_
  rintro edge _ hlt rfl
  exact String.lt_irrefl _ hlt

namespace Graph

/-- The ids that an index lists for a node. -/
def listed (outgoing : Std.ExtTreeMap String (Std.ExtTreeSet String)) (source : String) :
    Std.ExtTreeSet String :=
  outgoing[source]?.getD ∅

section Listed

variable {outgoing : Std.ExtTreeMap String (Std.ExtTreeSet String)}

theorem listed_link
    (source new other : String) :
    listed (link outgoing source new) other =
      if other = source then (listed outgoing source).insert new else listed outgoing other := by
  unfold listed link
  by_cases hsource : other = source
  · subst hsource
    simp
  · simp [Std.ExtTreeMap.getElem?_insert, hsource, Ne.symm hsource]

theorem listed_unlink
    (source gone other : String) :
    listed (unlink outgoing source gone) other =
      if other = source then (listed outgoing source).erase gone else listed outgoing other := by
  unfold listed unlink
  cases hheld : outgoing[source]? with
  | none =>
      by_cases hsource : other = source
      · subst hsource
        simp [hheld]
      · simp [hsource]
  | some ids =>
      by_cases hsource : other = source
      · subst hsource
        by_cases hempty : (ids.erase gone).isEmpty
        · simp only [hempty, if_true, Std.ExtTreeMap.getElem?_erase_self]
          exact (Std.ExtTreeSet.isEmpty_iff.mp hempty).symm
        · simp [hempty]
      · by_cases hempty : (ids.erase gone).isEmpty
        · simp [hempty, Std.ExtTreeMap.getElem?_erase, hsource, Ne.symm hsource]
        · simp [hempty, Std.ExtTreeMap.getElem?_insert, hsource, Ne.symm hsource]

theorem mem_listed_link
    {source new other id : String} :
    id ∈ listed (link outgoing source new) other ↔
      (other = source ∧ id = new) ∨ id ∈ listed outgoing other := by
  rw [listed_link]
  by_cases hsource : other = source
  · subst hsource
    simp [Std.ExtTreeSet.mem_insert, eq_comm (a := id)]
  · simp [hsource]

theorem mem_listed_unlink
    {source gone other id : String} :
    id ∈ listed (unlink outgoing source gone) other ↔
      id ∈ listed outgoing other ∧ ¬ (other = source ∧ id = gone) := by
  rw [listed_unlink]
  by_cases hsource : other = source
  · subst hsource
    simp [Std.ExtTreeSet.mem_erase, eq_comm (a := id), and_comm]
  · simp [hsource]

/-- No set of the index is empty. -/
def NoEmptySet (outgoing : Std.ExtTreeMap String (Std.ExtTreeSet String)) : Prop :=
  ∀ (source : String) (ids : Std.ExtTreeSet String), outgoing[source]? = some ids → ids ≠ ∅

theorem NoEmptySet.link
    (hfull : NoEmptySet outgoing)
    (source new : String) :
    NoEmptySet (link outgoing source new) := by
  intro other ids hheld
  simp only [Graph.link, Std.ExtTreeMap.getElem?_insert, Std.LawfulEqOrd.compare_eq_iff_eq] at hheld
  split at hheld
  · cases hheld
    exact Std.ExtTreeSet.insert_ne_empty
  · exact hfull other ids hheld

theorem NoEmptySet.unlink
    (hfull : NoEmptySet outgoing)
    (source gone : String) :
    NoEmptySet (unlink outgoing source gone) := by
  intro other ids hheld
  unfold Graph.unlink at hheld
  split at hheld
  · exact hfull other ids hheld
  · next held _ =>
    split at hheld
    · rw [Std.ExtTreeMap.getElem?_erase] at hheld
      split at hheld
      · cases hheld
      · exact hfull other ids hheld
    · next hsome =>
      rw [Std.ExtTreeMap.getElem?_insert] at hheld
      split at hheld
      · cases hheld
        simpa [Std.ExtTreeSet.isEmpty_iff] using hsome
      · exact hfull other ids hheld

end Listed

/-- An index without empty sets is decided by what it lists. -/
theorem NoEmptySet.ext
    {outgoing outgoing' : Std.ExtTreeMap String (Std.ExtTreeSet String)}
    (hfull : NoEmptySet outgoing)
    (hfull' : NoEmptySet outgoing')
    (hlisted : ∀ source, listed outgoing source = listed outgoing' source) :
    outgoing = outgoing' := by
  apply Std.ExtTreeMap.ext_getElem?
  intro source
  have hsame := hlisted source
  unfold listed at hsame
  cases hheld : outgoing[source]? with
  | none =>
      cases hheld' : outgoing'[source]? with
      | none => rfl
      | some ids' =>
          rw [hheld, hheld'] at hsame
          exact absurd hsame.symm (hfull' source ids' hheld')
  | some ids =>
      cases hheld' : outgoing'[source]? with
      | none =>
          rw [hheld, hheld'] at hsame
          exact absurd hsame (hfull source ids hheld)
      | some ids' =>
          rw [hheld, hheld'] at hsame
          exact congrArg some hsame

/-- The index lists an id for a node exactly if the edge kept under the id leaves the node. -/
def Lists (outgoing : Std.ExtTreeMap String (Std.ExtTreeSet String)) (edges : Table Edge) : Prop :=
  ∀ source id : String,
    id ∈ listed outgoing source ↔ ∃ edge, edges[id]? = some edge ∧ edge.source = source

section Lists

variable {outgoing : Std.ExtTreeMap String (Std.ExtTreeSet String)} {edges : Table Edge}

/-- An edge is entered whose id was free or stood for an edge that leaves the same node. -/
theorem Lists.link
    (hlists : Lists outgoing edges)
    {edge : Edge}
    (hold : ∀ old, edges[edge.id]? = some old → old.source = edge.source) :
    Lists (link outgoing edge.source edge.id) (edges.insert edge.id edge) := by
  intro source id
  rw [mem_listed_link, hlists source id, Std.ExtTreeMap.getElem?_insert]
  by_cases hid : edge.id = id
  · subst hid
    constructor
    · rintro (⟨rfl, -⟩ | ⟨old, hheld, rfl⟩)
      · exact ⟨edge, by simp, rfl⟩
      · exact ⟨edge, by simp, (hold old hheld).symm⟩
    · rintro ⟨new, hnew, rfl⟩
      simp only [Std.LawfulEqOrd.compare_eq_iff_eq, if_true, Option.some.injEq] at hnew
      subst hnew
      exact Or.inl ⟨rfl, rfl⟩
  · simp [hid, Ne.symm hid]

/-- An edge is entered in place of one that leaves another node. -/
theorem Lists.relink
    (hlists : Lists outgoing edges)
    {edge old : Edge}
    (hheld : edges[edge.id]? = some old)
    (hmoved : old.source ≠ edge.source) :
    Lists (unlink (Graph.link outgoing edge.source edge.id) old.source edge.id)
      (edges.insert edge.id edge) := by
  intro source id
  rw [mem_listed_unlink, mem_listed_link, hlists source id, Std.ExtTreeMap.getElem?_insert]
  by_cases hid : edge.id = id
  · subst hid
    constructor
    · rintro ⟨⟨rfl, -⟩ | ⟨other, hother, rfl⟩, hkept⟩
      · exact ⟨edge, by simp, rfl⟩
      · cases hheld.symm.trans hother
        exact absurd ⟨rfl, rfl⟩ hkept
    · rintro ⟨new, hnew, rfl⟩
      simp only [Std.LawfulEqOrd.compare_eq_iff_eq, if_true, Option.some.injEq] at hnew
      subst hnew
      exact ⟨Or.inl ⟨rfl, rfl⟩, fun hsame => hmoved hsame.1.symm⟩
  · simp [hid, Ne.symm hid]

/-- An edge is taken out. -/
theorem Lists.unlink
    (hlists : Lists outgoing edges)
    {id : String} {old : Edge}
    (hheld : edges[id]? = some old) :
    Lists (unlink outgoing old.source id) (edges.erase id) := by
  intro source other
  rw [mem_listed_unlink, hlists source other, Std.ExtTreeMap.getElem?_erase]
  by_cases hid : id = other
  · subst hid
    constructor
    · rintro ⟨⟨edge, hedge, rfl⟩, hkept⟩
      cases hheld.symm.trans hedge
      exact absurd ⟨rfl, rfl⟩ hkept
    · rintro ⟨edge, hedge, -⟩
      simp at hedge
  · simp [hid, Ne.symm hid]

end Lists

/-- The index is that of the edges, and holds no more than it needs. -/
structure Indexed (graph : Graph) : Prop where
  lists : Lists graph.outgoing graph.edges
  full : NoEmptySet graph.outgoing

theorem indexed_empty : empty.Indexed := by
  constructor
  · intro source id
    simp [empty, listed]
  · intro source ids hheld
    simp [empty] at hheld

theorem Indexed.update
    {graph : Graph}
    (hindexed : graph.Indexed)
    (change : Update) :
    (graph.update change).2.Indexed := by
  obtain ⟨hlists, hfull⟩ := hindexed
  cases change with
  | node write =>
      have houtgoing : (graph.update (.node write)).2.outgoing = graph.outgoing := by
        cases write with
        | add node =>
            simp only [Graph.update, addNode]
            split <;> rfl
        | upsert node => rfl
        | remove id => rfl
      obtain ⟨-, -, hedges⟩ := graph.update_node write
      constructor
      · rw [houtgoing, hedges]
        exact hlists
      · rw [houtgoing]
        exact hfull
  | edge write =>
      cases write with
      | add edge =>
          simp only [Graph.update, addEdge]
          split
          · exact ⟨hlists, hfull⟩
          · next hfree =>
            refine ⟨hlists.link ?_, hfull.link _ _⟩
            intro old hheld
            simp [Std.ExtTreeMap.contains_eq_isSome_getElem?, hheld] at hfree
      | upsert edge =>
          simp only [Graph.update, upsertEdge]
          cases hheld : graph.edges[edge.id]? with
          | none =>
              refine ⟨hlists.link ?_, hfull.link _ _⟩
              simp [hheld]
          | some old =>
              by_cases hsource : old.source = edge.source
              · simp only [hsource, if_true]
                refine ⟨hlists.link ?_, hfull.link _ _⟩
                intro other hother
                cases hheld.symm.trans hother
                exact hsource
              · simp only [hsource, if_false]
                exact ⟨hlists.relink hheld hsource, (hfull.link _ _).unlink _ _⟩
      | remove id =>
          simp only [Graph.update, removeEdge]
          cases hheld : graph.edges[id]? with
          | none => exact ⟨hlists, hfull⟩
          | some old => exact ⟨hlists.unlink hheld, hfull.unlink _ _⟩

theorem Indexed.replay
    {graph : Graph}
    (hindexed : graph.Indexed)
    (history : List Update) :
    (graph.replay history).Indexed := by
  induction history generalizing graph with
  | nil =>
      exact hindexed
  | cons change rest ih =>
      exact ih (hindexed.update change)

theorem Reachable.indexed
    {graph : Graph}
    (hreach : graph.Reachable) :
    graph.Indexed := by
  obtain ⟨history, rfl⟩ := hreach
  exact indexed_empty.replay history

/-- Whatever the histories of two graphs, they are the same graph if their tables are. -/
theorem Reachable.ext
    {graph other : Graph}
    (hreach : graph.Reachable)
    (hreach' : other.Reachable)
    (hnodes : graph.nodes = other.nodes)
    (hedges : graph.edges = other.edges) :
    graph = other := by
  have hindex : graph.outgoing = other.outgoing := by
    refine hreach.indexed.full.ext hreach'.indexed.full fun source => ?_
    apply Std.ExtTreeSet.ext_mem
    intro id
    rw [hreach.indexed.lists source id, hreach'.indexed.lists source id, hedges]
  obtain ⟨nodes, edges, outgoing⟩ := graph
  obtain ⟨nodes', edges', outgoing'⟩ := other
  cases hnodes
  cases hedges
  cases hindex
  rfl

section Departures

/-- The edges of a table that leave a node, in the order of the table. -/
def leaving (edges : Table Edge) (id : String) : List Edge :=
  (edges.toList.map Prod.snd).filter (fun edge => edge.source = id)

theorem Keyed.mem_leaving_iff
    {graph : Graph}
    (hkeyed : graph.Keyed)
    {id : String} {edge : Edge} :
    edge ∈ leaving graph.edges id ↔ graph.edges[edge.id]? = some edge ∧ edge.source = id := by
  have hiff := @Keyed.mem_departures_iff graph hkeyed id edge
  rw [departures_snapshot] at hiff
  exact hiff

theorem Keyed.sorted_leaving
    {graph : Graph}
    (hkeyed : graph.Keyed)
    (id : String) :
    (leaving graph.edges id).Pairwise (fun edge later => edge.id < later.id) := by
  exact hkeyed.sorted_edges.filter _

theorem Keyed.sorted_departures
    {graph : Graph}
    (hkeyed : graph.Keyed)
    (id : String) :
    (graph.departures id).Pairwise (fun edge later => edge.id < later.id) := by
  apply List.Pairwise.filterMap _ _ Std.ExtTreeSet.ordered_toList
  intro first second hlt edge hedge later hlater
  rw [hkeyed.edges _ _ hedge, hkeyed.edges _ _ hlater]
  exact compareOfLessAndEq_eq_lt.mp hlt

theorem Indexed.mem_departures_iff
    {graph : Graph}
    (hindexed : graph.Indexed)
    (hkeyed : graph.Keyed)
    {id : String} {edge : Edge} :
    edge ∈ graph.departures id ↔ graph.edges[edge.id]? = some edge ∧ edge.source = id := by
  have hdepartures :
      edge ∈ graph.departures id ↔
        ∃ key, key ∈ listed graph.outgoing id ∧ graph.edges[key]? = some edge := by
    simp [departures, listed, List.mem_filterMap]
  rw [hdepartures]
  constructor
  · rintro ⟨key, hlisted, hheld⟩
    obtain ⟨held, hheld', rfl⟩ := (hindexed.lists id key).mp hlisted
    cases hheld.symm.trans hheld'
    rw [hkeyed.edges key edge hheld]
    exact ⟨hheld, rfl⟩
  · rintro ⟨hheld, rfl⟩
    exact ⟨edge.id, (hindexed.lists edge.source edge.id).mpr ⟨edge, hheld, rfl⟩, hheld⟩

/-- The index gives the same departures as a search through all edges. -/
theorem Indexed.departures_eq_leaving
    {graph : Graph}
    (hindexed : graph.Indexed)
    (hkeyed : graph.Keyed)
    (id : String) :
    graph.departures id = leaving graph.edges id := by
  apply eq_of_pairwise_of_mem_iff _ _ (hkeyed.sorted_departures id) (hkeyed.sorted_leaving id)
  · intro edge
    rw [hindexed.mem_departures_iff hkeyed, hkeyed.mem_leaving_iff]
  · intro edge
    exact String.lt_irrefl edge.id
  · intro edge later
    exact String.lt_asymm

end Departures

section Sizes

theorem values_eq_map_snd_toList
    {α β : Type} {cmp : α → α → Ordering} [Std.TransCmp cmp]
    (map : Std.ExtTreeMap α β cmp) :
    map.values = map.toList.map Prod.snd := by
  have hfold : map.values = map.foldr (fun _ value values => value :: values) [] := by
    obtain ⟨⟨tree⟩⟩ := map
    induction tree using Quotient.ind with
    | _ tree => rfl
  rw [hfold, Std.ExtTreeMap.foldr_eq_foldr_toList]
  induction map.toList with
  | nil =>
      rfl
  | cons entry rest ih =>
      rw [List.foldr_cons, List.map_cons, ih]

/-- A group of a snapshot is the list of departures of the node it is kept for. -/
theorem mem_toList_leaving_snapshot
    {graph : Graph}
    {id : String} {edges : List Edge}
    (hgroup : (id, edges) ∈ graph.snapshot.leaving.toList) :
    edges = graph.snapshot.departures id := by
  rw [Std.ExtTreeMap.mem_toList_iff_getElem?_eq_some] at hgroup
  unfold Snapshot.departures
  rw [hgroup]
  rfl

theorem mem_flatten_leaving_iff
    {graph : Graph}
    {edge : Edge} :
    edge ∈ graph.snapshot.leaving.values.flatten ↔
      ∃ id, edge ∈ graph.snapshot.departures id := by
  rw [values_eq_map_snd_toList]
  constructor
  · intro hmem
    obtain ⟨edges, hedges, hedge⟩ := List.mem_flatten.mp hmem
    obtain ⟨⟨id, _⟩, hgroup, rfl⟩ := List.mem_map.mp hedges
    rw [mem_toList_leaving_snapshot hgroup] at hedge
    exact ⟨id, hedge⟩
  · rintro ⟨id, hedge⟩
    unfold Snapshot.departures at hedge
    cases hgroup : graph.snapshot.leaving[id]? with
    | none =>
        simp [hgroup] at hedge
    | some edges =>
        rw [hgroup] at hedge
        rw [← Std.ExtTreeMap.mem_toList_iff_getElem?_eq_some] at hgroup
        exact List.mem_flatten.mpr ⟨edges, List.mem_map.mpr ⟨_, hgroup, rfl⟩, hedge⟩

theorem Keyed.nodup_flatten_leaving
    {graph : Graph}
    (hkeyed : graph.Keyed) :
    graph.snapshot.leaving.values.flatten.Nodup := by
  have hwf := hkeyed.wellFormed_snapshot
  rw [values_eq_map_snd_toList, List.nodup_flatten]
  constructor
  · intro edges hedges
    obtain ⟨⟨id, _⟩, hgroup, rfl⟩ := List.mem_map.mp hedges
    rw [mem_toList_leaving_snapshot hgroup]
    exact hwf.nodup_departures id
  · rw [List.pairwise_map]
    apply List.Pairwise.imp_of_mem _ Std.ExtTreeMap.distinct_keys_toList
    rintro ⟨id, _⟩ ⟨id', _⟩ hgroup hgroup' hdistinct
    rw [mem_toList_leaving_snapshot hgroup, mem_toList_leaving_snapshot hgroup']
    intro edge hedge hedge'
    apply hdistinct
    rw [← hwf.leaves id edge hedge, ← hwf.leaves id' edge hedge']
    exact Std.ReflCmp.compare_self

/-- A snapshot holds every edge of the graph once. -/
theorem Keyed.edgeCount_snapshot
    {graph : Graph}
    (hkeyed : graph.Keyed) :
    graph.snapshot.edgeCount = graph.edgeCount := by
  have hnodup : (graph.edges.toList.map Prod.snd).Nodup := by
    refine hkeyed.sorted_edges.imp ?_
    rintro edge _ hlt rfl
    exact String.lt_irrefl _ hlt
  have hperm :
      graph.snapshot.leaving.values.flatten.Perm (graph.edges.toList.map Prod.snd) := by
    rw [List.perm_ext_iff_of_nodup hkeyed.nodup_flatten_leaving hnodup]
    intro edge
    rw [mem_flatten_leaving_iff]
    simp [departures_snapshot]
  unfold Snapshot.edgeCount edgeCount
  rw [hperm.length_eq, List.length_map, Std.ExtTreeMap.length_toList]

end Sizes

section Refinement

/-- What two tables alone would answer to an update. -/
def Update.tableAnswer (held : Table Node × Table Edge) : Update → Bool
  | .node write => (write.apply Node.id held.1).1
  | .edge write => (write.apply Edge.id held.2).1

/-- What two tables alone would answer to updates made one after the other. -/
def tableAnswers (held : Table Node × Table Edge) : List Update → List Bool
  | [] => []
  | change :: rest => change.tableAnswer held :: tableAnswers (change.applyTables held) rest

/-- What the graph answers to updates made one after the other. -/
def answers (graph : Graph) : List Update → List Bool
  | [] => []
  | change :: rest => (graph.update change).1 :: (graph.update change).2.answers rest

/-- The graph answers every query from a table of nodes and a table of edges. -/
structure Shows (graph : Graph) (nodes : Table Node) (edges : Table Edge) : Prop where
  nodes_eq : graph.nodes = nodes
  edges_eq : graph.edges = edges
  nodeCount : graph.nodeCount = nodes.size
  edgeCount : graph.edgeCount = edges.size
  departures : ∀ id, graph.departures id = leaving edges id
  /-- Departures are the edges that leave the node, each once and by increasing id. -/
  mem_departures :
    ∀ (id : String) (edge : Edge),
      edge ∈ graph.departures id ↔ edges[edge.id]? = some edge ∧ edge.source = id
  sorted_departures :
    ∀ id, (graph.departures id).Pairwise (fun edge later => edge.id < later.id)
  snapshot_nodes : graph.snapshot.nodes = nodes
  snapshot_departures : ∀ id, graph.snapshot.departures id = graph.departures id
  snapshot_nodeCount : graph.snapshot.nodeCount = graph.nodeCount
  snapshot_edgeCount : graph.snapshot.edgeCount = graph.edgeCount
  /-- The index lists only ids of edges that leave the node, and for no node an empty set. -/
  index :
    ∀ (source : String) (ids : Std.ExtTreeSet String), graph.outgoing[source]? = some ids →
      ids ≠ ∅ ∧ ∀ id ∈ ids, ∃ edge : Edge, edges[id]? = some edge ∧ edge.source = source

theorem tableAnswer_eq
    (graph : Graph)
    (change : Update) :
    (graph.update change).1 = change.tableAnswer graph.tables := by
  cases change with
  | node write => exact (graph.update_node write).1
  | edge write => exact (graph.update_edge write).1

theorem answers_eq_tableAnswers
    (graph : Graph)
    (history : List Update) :
    graph.answers history = tableAnswers graph.tables history := by
  induction history generalizing graph with
  | nil =>
      rfl
  | cons change rest ih =>
      rw [answers, tableAnswers, tableAnswer_eq, ih, tables_update]

theorem Reachable.shows
    {graph : Graph}
    (hreach : graph.Reachable) :
    graph.Shows graph.nodes graph.edges := by
  have hkeyed := hreach.keyed
  have hindexed := hreach.indexed
  exact
    { nodes_eq := rfl
      edges_eq := rfl
      nodeCount := rfl
      edgeCount := rfl
      departures := hindexed.departures_eq_leaving hkeyed
      mem_departures := fun _ _ => hindexed.mem_departures_iff hkeyed
      sorted_departures := hkeyed.sorted_departures
      snapshot_nodes := rfl
      snapshot_departures := by
        intro id
        rw [departures_snapshot, hindexed.departures_eq_leaving hkeyed]
        rfl
      snapshot_nodeCount := rfl
      snapshot_edgeCount := hkeyed.edgeCount_snapshot
      index := by
        intro source ids hheld
        refine ⟨hindexed.full source ids hheld, ?_⟩
        intro id hid
        apply (hindexed.lists source id).mp
        simpa [listed, hheld] using hid }

/-- After any history the graph has answered, and will answer, as two tables do that know nothing
of an index. -/
theorem replay_refines_tables
    (history : List Update) :
    let held := history.foldl Update.applyTables (∅, ∅)
    empty.answers history = tableAnswers (∅, ∅) history ∧
      (empty.replay history).Shows held.1 held.2 := by
  intro held
  have htables : (empty.replay history).tables = held := tables_replay empty history
  refine ⟨answers_eq_tableAnswers empty history, ?_⟩
  rw [← htables]
  exact Reachable.shows ⟨history, rfl⟩

end Refinement

end Graph

end HopRouting
