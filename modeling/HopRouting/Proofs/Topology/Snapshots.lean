import HopRouting.Proofs.Topology.Updates

/-!
# Snapshots of the flow graph

A snapshot groups the edges of the graph by the node that they leave.  This module reads the
groups back: the departures of a node are exactly the edges of the graph that name it as their
source, each of them once and by increasing id.

Route search relies on three facts about a snapshot, collected in `Snapshot.WellFormed`: nodes are
kept under their own ids, departures leave the node they are listed for, and they are sorted.  All
of them hold of every snapshot of a reachable graph.
-/

namespace HopRouting

namespace Snapshot

/-- The edge is one of the snapshot. -/
def HasEdge (snapshot : Snapshot) (edge : Edge) : Prop :=
  edge ∈ snapshot.departures edge.source

/-- What route search relies on. -/
structure WellFormed (snapshot : Snapshot) : Prop where
  node_id : KeyedBy Node.id snapshot.nodes
  leaves : ∀ (id : String) (edge : Edge), edge ∈ snapshot.departures id → edge.source = id
  sorted : ∀ id : String, (snapshot.departures id).Pairwise (fun edge later => edge.id < later.id)

theorem WellFormed.mem_departures_iff
    {snapshot : Snapshot}
    (hwf : snapshot.WellFormed)
    {id : String} {edge : Edge} :
    edge ∈ snapshot.departures id ↔ snapshot.HasEdge edge ∧ edge.source = id := by
  constructor
  · intro hmem
    have hsource := hwf.leaves id edge hmem
    subst hsource
    exact ⟨hmem, rfl⟩
  · rintro ⟨hedge, rfl⟩
    exact hedge

end Snapshot

namespace Graph

section Grouping

theorem getElem?_group
    (edge : Edge)
    (leaving : Std.ExtTreeMap String (List Edge))
    (id : String) :
    (group edge leaving)[id]?.getD [] =
      if edge.source = id then edge :: leaving[id]?.getD [] else leaving[id]?.getD [] := by
  by_cases hsource : edge.source = id
  · subst hsource
    simp [group]
  · simp [group, Std.ExtTreeMap.getElem?_insert, hsource]

theorem getElem?_foldr_group
    (entries : List (String × Edge))
    (id : String) :
    (entries.foldr (fun entry leaving => group entry.2 leaving) ∅)[id]?.getD [] =
      (entries.map Prod.snd).filter (fun edge => edge.source = id) := by
  induction entries with
  | nil =>
      simp
  | cons entry rest ih =>
      rw [List.foldr_cons, getElem?_group, ih, List.map_cons, List.filter_cons]
      simp

/-- The departures of a node are the edges that leave it, in the order of the table. -/
theorem departures_snapshot
    (graph : Graph)
    (id : String) :
    graph.snapshot.departures id =
      (graph.edges.toList.map Prod.snd).filter (fun edge => edge.source = id) := by
  rw [← getElem?_foldr_group]
  simp only [Snapshot.departures, snapshot, Std.ExtTreeMap.foldr_eq_foldr_toList]

theorem Keyed.mem_departures_iff
    {graph : Graph}
    (hkeyed : graph.Keyed)
    {id : String} {edge : Edge} :
    edge ∈ graph.snapshot.departures id ↔
      graph.edges[edge.id]? = some edge ∧ edge.source = id := by
  simp only [departures_snapshot, List.mem_filter, List.mem_map, Prod.exists,
    Std.ExtTreeMap.mem_toList_iff_getElem?_eq_some, exists_eq_right, decide_eq_true_eq]
  constructor
  · rintro ⟨⟨key, hheld⟩, hsource⟩
    have hid : edge.id = key := hkeyed.edges key edge hheld
    exact ⟨hid ▸ hheld, hsource⟩
  · rintro ⟨hheld, hsource⟩
    exact ⟨⟨edge.id, hheld⟩, hsource⟩

theorem Keyed.hasEdge_snapshot_iff
    {graph : Graph}
    (hkeyed : graph.Keyed)
    {edge : Edge} :
    graph.snapshot.HasEdge edge ↔ graph.edges[edge.id]? = some edge := by
  rw [Snapshot.HasEdge, hkeyed.mem_departures_iff]
  simp

theorem Keyed.sorted_edges
    {graph : Graph}
    (hkeyed : graph.Keyed) :
    (graph.edges.toList.map Prod.snd).Pairwise (fun edge later => edge.id < later.id) := by
  rw [List.pairwise_map]
  apply List.Pairwise.imp_of_mem _ graph.edges.ordered_keys_toList
  intro entry later hentry hlater hlt
  rw [Std.ExtTreeMap.mem_toList_iff_getElem?_eq_some] at hentry hlater
  rw [hkeyed.edges _ _ hentry, hkeyed.edges _ _ hlater]
  exact compareOfLessAndEq_eq_lt.mp hlt

end Grouping

/-- What route search relies on holds of the snapshots of graphs kept by id. -/
theorem Keyed.wellFormed_snapshot
    {graph : Graph}
    (hkeyed : graph.Keyed) :
    graph.snapshot.WellFormed where
  node_id := hkeyed.nodes
  leaves := by
    intro id edge hmem
    exact (hkeyed.mem_departures_iff.mp hmem).2
  sorted := by
    intro id
    rw [departures_snapshot]
    exact hkeyed.sorted_edges.filter _

section Equality

/-- Two graphs hold the same nodes and the same edges. -/
structure SameElements (graph other : Graph) : Prop where
  nodes :
    ∀ node : Node,
      (∃ id : String, graph.nodes[id]? = some node) ↔ ∃ id : String, other.nodes[id]? = some node
  edges :
    ∀ edge : Edge,
      (∃ id : String, graph.edges[id]? = some edge) ↔ ∃ id : String, other.edges[id]? = some edge

theorem snapshot_eq_of_tables_eq
    {graph other : Graph}
    (htables : graph.tables = other.tables) :
    graph.snapshot = other.snapshot := by
  obtain ⟨hnodes, hedges⟩ := Prod.mk.inj htables
  unfold snapshot
  rw [hnodes, hedges]

/-- What the elements are decides the snapshot, if they are kept by id. -/
theorem SameElements.snapshot_eq
    {graph other : Graph}
    (hsame : graph.SameElements other)
    (hkeyed : graph.Keyed)
    (hkeyed' : other.Keyed) :
    graph.snapshot = other.snapshot := by
  apply snapshot_eq_of_tables_eq
  unfold tables
  rw [hkeyed.nodes.ext hkeyed'.nodes hsame.nodes, hkeyed.edges.ext hkeyed'.edges hsame.edges]

end Equality

end Graph

end HopRouting
