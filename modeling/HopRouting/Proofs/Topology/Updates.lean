import Mathlib.Data.List.Perm.Basic
import HopRouting.Topology.Graph

/-!
# Histories of the flow graph

The graph is changed by six operations: nodes and edges are added, put in place of what has their
id, or removed.  A history is a list of such updates, and a graph is reachable if some history
leads to it from the empty graph.

**Tables.**  An update writes one entry of one of two tables, that of the nodes or that of the
edges.  `Write.apply` says what a write does to a table on its own; the graph does just that to the
table in question and nothing to the other one.

**Results.**
* `Reachable.keyed`: every element of a reachable graph is kept under its own id.
* `KeyedBy.ext`: a table of such elements is decided by what they are.
* `tables_replay_perm`: updates of different entries can be made in any order.
-/

namespace HopRouting

/-- Elements by id. -/
abbrev Table (α : Type) := Std.ExtTreeMap String α

theorem erase_eq_of_getElem?_eq_none
    {α : Type} {table : Table α} {id : String}
    (habsent : table[id]? = none) :
    table.erase id = table := by
  apply Std.ExtTreeMap.ext_getElem?
  intro other
  by_cases hother : id = other
  · subst hother
    simp [habsent]
  · simp [Std.ExtTreeMap.getElem?_erase, hother]

/-- A change of one entry of a table of elements that have ids. -/
inductive Write (α : Type) where
  /-- Puts an element into the table unless its id is taken. -/
  | add (element : α)
  /-- Puts an element into the table, in place of the one with its id. -/
  | upsert (element : α)
  /-- Removes the element with the id. -/
  | remove (id : String)
  deriving DecidableEq

/-- Every element of the table is kept under its own id. -/
def KeyedBy {α : Type} (idOf : α → String) (table : Table α) : Prop :=
  ∀ (id : String) (element : α), table[id]? = some element → idOf element = id

namespace Write

section Tables

variable {α : Type} (idOf : α → String)

/-- The id of the entry that is written. -/
def key : Write α → String
  | add element => idOf element
  | upsert element => idOf element
  | remove id => id

/-- What a write does to a table, and whether it changed or replaced something. -/
def apply (table : Table α) : Write α → Bool × Table α
  | add element =>
      if table.contains (idOf element) then (false, table)
      else (true, table.insert (idOf element) element)
  | upsert element =>
      (table.contains (idOf element), table.insert (idOf element) element)
  | remove id =>
      (table.contains id, table.erase id)

theorem getElem?_apply_of_ne
    (table : Table α)
    (write : Write α)
    {id : String}
    (hne : write.key idOf ≠ id) :
    (write.apply idOf table).2[id]? = table[id]? := by
  cases write with
  | add element =>
      simp only [key] at hne
      simp only [apply]
      split
      · rfl
      · simp [Std.ExtTreeMap.getElem?_insert, hne]
  | upsert element =>
      simp only [key] at hne
      simp [apply, Std.ExtTreeMap.getElem?_insert, hne]
  | remove gone =>
      simp only [key] at hne
      simp [apply, Std.ExtTreeMap.getElem?_erase, hne]

/-- What is added takes no place that is taken. -/
theorem getElem?_apply_add
    {table : Table α} {id : String} {held : α}
    (hheld : table[id]? = some held)
    (new : α) :
    ((Write.add new).apply idOf table).2[id]? = some held := by
  simp only [apply]
  split
  · exact hheld
  · next habsent =>
    have hother : idOf new ≠ id := by
      rintro rfl
      simp [Std.ExtTreeMap.contains_eq_isSome_getElem?, hheld] at habsent
    simp [Std.ExtTreeMap.getElem?_insert, hother, hheld]

/-- What a write makes of its entry depends on that entry only. -/
theorem getElem?_apply_key_congr
    {table table' : Table α}
    (write : Write α)
    (hentry : table[write.key idOf]? = table'[write.key idOf]?) :
    (write.apply idOf table).2[write.key idOf]? =
      (write.apply idOf table').2[write.key idOf]? := by
  cases write with
  | add element =>
      simp only [key] at hentry ⊢
      have hcontains :
          table.contains (idOf element) = table'.contains (idOf element) := by
        rw [Std.ExtTreeMap.contains_eq_isSome_getElem?,
          Std.ExtTreeMap.contains_eq_isSome_getElem?, hentry]
      cases hheld : table'.contains (idOf element) with
      | true => simp [apply, hcontains, hheld, hentry]
      | false => simp [apply, hcontains, hheld]
  | upsert element =>
      simp [apply, key]
  | remove id =>
      simp [apply, key]

theorem apply_comm
    (table : Table α)
    (first second : Write α)
    (hne : first.key idOf ≠ second.key idOf) :
    (second.apply idOf (first.apply idOf table).2).2 =
      (first.apply idOf (second.apply idOf table).2).2 := by
  apply Std.ExtTreeMap.ext_getElem?
  intro id
  by_cases hfirst : first.key idOf = id
  · subst hfirst
    rw [getElem?_apply_of_ne idOf _ second hne.symm]
    apply getElem?_apply_key_congr
    rw [getElem?_apply_of_ne idOf _ second hne.symm]
  · rw [getElem?_apply_of_ne idOf _ first hfirst]
    by_cases hsecond : second.key idOf = id
    · subst hsecond
      apply getElem?_apply_key_congr
      rw [getElem?_apply_of_ne idOf _ first hfirst]
    · rw [getElem?_apply_of_ne idOf _ second hsecond,
        getElem?_apply_of_ne idOf _ second hsecond,
        getElem?_apply_of_ne idOf _ first hfirst]

end Tables

end Write

theorem KeyedBy.apply
    {α : Type}
    {idOf : α → String}
    {table : Table α}
    (hkeyed : KeyedBy idOf table)
    (write : Write α) :
    KeyedBy idOf (write.apply idOf table).2 := by
  intro id element hheld
  cases write with
  | add new =>
      simp only [Write.apply] at hheld
      split at hheld
      · exact hkeyed id element hheld
      · simp only [Std.ExtTreeMap.getElem?_insert, Std.LawfulEqOrd.compare_eq_iff_eq] at hheld
        split at hheld
        · next hid => exact Option.some.inj hheld ▸ hid
        · exact hkeyed id element hheld
  | upsert new =>
      simp only [Write.apply, Std.ExtTreeMap.getElem?_insert,
        Std.LawfulEqOrd.compare_eq_iff_eq] at hheld
      split at hheld
      · next hid => exact Option.some.inj hheld ▸ hid
      · exact hkeyed id element hheld
  | remove gone =>
      simp only [Write.apply, Std.ExtTreeMap.getElem?_erase,
        Std.LawfulEqOrd.compare_eq_iff_eq] at hheld
      split at hheld
      · cases hheld
      · exact hkeyed id element hheld

theorem KeyedBy.ext
    {α : Type}
    {idOf : α → String}
    {table table' : Table α}
    (hkeyed : KeyedBy idOf table)
    (hkeyed' : KeyedBy idOf table')
    (hsame :
      ∀ element : α,
        (∃ id : String, table[id]? = some element) ↔ ∃ id : String, table'[id]? = some element) :
    table = table' := by
  apply Std.ExtTreeMap.ext_getElem?
  intro id
  apply Option.ext
  intro element
  constructor
  · intro hheld
    obtain ⟨id', hheld'⟩ := (hsame element).mp ⟨id, hheld⟩
    rw [← hkeyed id element hheld, hkeyed' id' element hheld']
    exact hheld'
  · intro hheld
    obtain ⟨id', hheld'⟩ := (hsame element).mpr ⟨id, hheld⟩
    rw [← hkeyed' id element hheld, hkeyed id' element hheld']
    exact hheld'

namespace Graph

section Updates

/-- A change of the graph. -/
inductive Update where
  | node (write : Write Node)
  | edge (write : Write Edge)
  deriving DecidableEq

/-- An entry of the graph. -/
inductive Entry where
  | node (id : String)
  | edge (id : String)
  deriving DecidableEq

/-- The entry that an update writes. -/
def Update.entry : Update → Entry
  | .node write => .node (write.key Node.id)
  | .edge write => .edge (write.key Edge.id)

/-- Makes an update; answers as the operation does. -/
def update (graph : Graph) : Update → Bool × Graph
  | .node (.add node) => graph.addNode node
  | .node (.upsert node) => graph.upsertNode node
  | .node (.remove id) => graph.removeNode id
  | .edge (.add edge) => graph.addEdge edge
  | .edge (.upsert edge) => graph.upsertEdge edge
  | .edge (.remove id) => graph.removeEdge id

/-- What a graph becomes when updates are made one after the other. -/
def replay (graph : Graph) (history : List Update) : Graph :=
  history.foldl (fun graph change => (graph.update change).2) graph

/-- Some history leads to the graph. -/
def Reachable (graph : Graph) : Prop :=
  ∃ history, empty.replay history = graph

/-- An update of a node writes the table of the nodes and leaves that of the edges alone. -/
theorem update_node
    (graph : Graph)
    (write : Write Node) :
    (graph.update (.node write)).1 = (write.apply Node.id graph.nodes).1 ∧
    (graph.update (.node write)).2.nodes = (write.apply Node.id graph.nodes).2 ∧
    (graph.update (.node write)).2.edges = graph.edges := by
  cases write with
  | add node =>
      simp only [update, addNode, Write.apply]
      split <;> simp
  | upsert node =>
      simp [update, upsertNode, Write.apply]
  | remove id =>
      simp [update, removeNode, Write.apply]

/-- An update of an edge writes the table of the edges and leaves that of the nodes alone. -/
theorem update_edge
    (graph : Graph)
    (write : Write Edge) :
    (graph.update (.edge write)).1 = (write.apply Edge.id graph.edges).1 ∧
    (graph.update (.edge write)).2.nodes = graph.nodes ∧
    (graph.update (.edge write)).2.edges = (write.apply Edge.id graph.edges).2 := by
  cases write with
  | add edge =>
      simp only [update, addEdge, Write.apply]
      split <;> simp
  | upsert edge =>
      simp [update, upsertEdge, Write.apply]
  | remove id =>
      simp only [update, removeEdge, Write.apply,
        Std.ExtTreeMap.contains_eq_isSome_getElem?]
      cases hheld : graph.edges[id]? with
      | none =>
          simp [erase_eq_of_getElem?_eq_none hheld]
      | some edge =>
          simp

end Updates

section ReachableGraphs

theorem replay_append
    (graph : Graph)
    (history later : List Update) :
    graph.replay (history ++ later) = (graph.replay history).replay later := by
  exact List.foldl_append

theorem Reachable.update
    {graph : Graph}
    (hreach : graph.Reachable)
    (change : Update) :
    (graph.update change).2.Reachable := by
  obtain ⟨history, rfl⟩ := hreach
  exact ⟨history ++ [change], replay_append _ _ _⟩

theorem Reachable.replay
    {graph : Graph}
    (hreach : graph.Reachable)
    (later : List Update) :
    (graph.replay later).Reachable := by
  obtain ⟨history, rfl⟩ := hreach
  exact ⟨history ++ later, replay_append _ _ _⟩

/-- The tables of the graph keep every element under its own id. -/
structure Keyed (graph : Graph) : Prop where
  nodes : KeyedBy Node.id graph.nodes
  edges : KeyedBy Edge.id graph.edges

theorem keyed_empty : empty.Keyed := by
  constructor
  · intro id node hheld
    simp [empty] at hheld
  · intro id edge hheld
    simp [empty] at hheld

theorem Keyed.update
    {graph : Graph}
    (hkeyed : graph.Keyed)
    (change : Update) :
    (graph.update change).2.Keyed := by
  cases change with
  | node write =>
      obtain ⟨-, hnodes, hedges⟩ := graph.update_node write
      constructor
      · rw [hnodes]
        exact KeyedBy.apply hkeyed.nodes write
      · rw [hedges]
        exact hkeyed.edges
  | edge write =>
      obtain ⟨-, hnodes, hedges⟩ := graph.update_edge write
      constructor
      · rw [hnodes]
        exact hkeyed.nodes
      · rw [hedges]
        exact KeyedBy.apply hkeyed.edges write

theorem Keyed.replay
    {graph : Graph}
    (hkeyed : graph.Keyed)
    (history : List Update) :
    (graph.replay history).Keyed := by
  induction history generalizing graph with
  | nil =>
      exact hkeyed
  | cons change rest ih =>
      exact ih (hkeyed.update change)

theorem Reachable.keyed
    {graph : Graph}
    (hreach : graph.Reachable) :
    graph.Keyed := by
  obtain ⟨history, rfl⟩ := hreach
  exact keyed_empty.replay history

end ReachableGraphs

section Order

/-- The two tables of a graph. -/
def tables (graph : Graph) : Table Node × Table Edge :=
  (graph.nodes, graph.edges)

/-- What an update does to the two tables. -/
def Update.applyTables (held : Table Node × Table Edge) : Update → Table Node × Table Edge
  | .node write => ((write.apply Node.id held.1).2, held.2)
  | .edge write => (held.1, (write.apply Edge.id held.2).2)

theorem tables_update
    (graph : Graph)
    (change : Update) :
    (graph.update change).2.tables = change.applyTables graph.tables := by
  cases change with
  | node write =>
      obtain ⟨-, hnodes, hedges⟩ := graph.update_node write
      simp [tables, Update.applyTables, hnodes, hedges]
  | edge write =>
      obtain ⟨-, hnodes, hedges⟩ := graph.update_edge write
      simp [tables, Update.applyTables, hnodes, hedges]

theorem tables_replay
    (graph : Graph)
    (history : List Update) :
    (graph.replay history).tables = history.foldl Update.applyTables graph.tables := by
  induction history generalizing graph with
  | nil =>
      rfl
  | cons change rest ih =>
      have hrest := ih (graph.update change).2
      rw [tables_update] at hrest
      exact hrest

theorem Update.applyTables_comm
    {first second : Update}
    (hne : first.entry ≠ second.entry)
    (held : Table Node × Table Edge) :
    second.applyTables (first.applyTables held) =
      first.applyTables (second.applyTables held) := by
  cases first with
  | node write =>
      cases second with
      | node write' =>
          have hkey : write.key Node.id ≠ write'.key Node.id := by
            simpa [Update.entry] using hne
          simp only [Update.applyTables, Write.apply_comm Node.id held.1 write write' hkey]
      | edge write' =>
          rfl
  | edge write =>
      cases second with
      | node write' =>
          rfl
      | edge write' =>
          have hkey : write.key Edge.id ≠ write'.key Edge.id := by
            simpa [Update.entry] using hne
          simp only [Update.applyTables, Write.apply_comm Edge.id held.2 write write' hkey]

/-- Updates of different entries can be made in any order. -/
theorem tables_replay_perm
    (graph : Graph)
    {history history' : List Update}
    (hperm : history.Perm history')
    (hentries :
      ∀ change ∈ history, ∀ other ∈ history,
        change ≠ other → change.entry ≠ other.entry) :
    (graph.replay history).tables = (graph.replay history').tables := by
  rw [tables_replay, tables_replay]
  apply hperm.foldl_eq'
  intro change hchange other hother held
  by_cases hsame : change = other
  · rw [hsame]
  · exact Update.applyTables_comm (hentries change hchange other hother hsame) held

end Order

end Graph

end HopRouting
