import HopRouting.Proofs.Sync.Effects

/-!
# Edge files that share an id

The id of an edge is its source, its destination and its name in one text, with underscores between
them.  Names of directories and files may have underscores too, so that different files can tell the
same id: `a_b/c/e` and `a/b_c/e` do.

**Ids.**  `idOf_eq_iff`: what is left of an edge in its id are the words of its source, its
destination and its name, one after the other.  Where one of them ends is lost.

**Results.**  What is done about one edge file never touches the edge of another exactly if their
ids differ (`keepsApart_iff`), and so it is for files whose sources have equally many words, and
whose destinations have; but not for all files (`not_keepsApart`).
-/

namespace HopRouting

namespace Edge

/-- The words of a name, between its underscores. -/
def words (name : String) : List (List Char) :=
  name.toList.splitOn '_'

theorem eq_of_words_eq
    {name other : String}
    (hwords : words name = words other) :
    name = other := by
  have hjoined : ∀ text : String, ['_'].intercalate (words text) = text.toList :=
    fun text => List.intercalate_splitOn '_'
  apply String.toList_injective
  rw [← hjoined name, ← hjoined other, hwords]

section Ids

variable {source destination name source' destination' name' : String}

/-- An id has the words of the source, then those of the destination, then those of the name. -/
theorem words_idOf
    (source destination name : String) :
    words (idOf source destination name) = words source ++ words destination ++ words name := by
  have htext :
      (idOf source destination name).toList =
        source.toList ++ '_' :: (destination.toList ++ '_' :: name.toList) := by
    simp [idOf]
  rw [words, htext, List.splitOn_append_cons_self, List.splitOn_append_cons_self,
    ← List.append_assoc]
  rfl

theorem idOf_eq_iff :
    idOf source destination name = idOf source' destination' name' ↔
      words source ++ words destination ++ words name =
        words source' ++ words destination' ++ words name' := by
  rw [← words_idOf, ← words_idOf]
  exact ⟨congrArg words, eq_of_words_eq⟩

/-- Where it is known how many words the source and the destination have, the id tells all three
names. -/
theorem eq_of_idOf_eq
    (hsource : (words source).length = (words source').length)
    (hdestination : (words destination).length = (words destination').length)
    (hid : idOf source destination name = idOf source' destination' name') :
    (source, destination, name) = (source', destination', name') := by
  rw [idOf_eq_iff, List.append_assoc, List.append_assoc] at hid
  obtain ⟨hfirst, hrest⟩ := List.append_inj hid hsource
  obtain ⟨hsecond, hthird⟩ := List.append_inj hrest hdestination
  rw [eq_of_words_eq hfirst, eq_of_words_eq hsecond, eq_of_words_eq hthird]

end Ids

end Edge

namespace Graph

/-- The edge of the id is the same in both graphs, and leaves the same node. -/
structure SameEdge (graph other : Graph) (id : String) : Prop where
  held : graph.edges[id]? = other.edges[id]?
  departures :
    ∀ (node : String) (edge : Edge), edge.id = id →
      (edge ∈ graph.departures node ↔ edge ∈ other.departures node)

/-- In reachable graphs the departures of a node follow the edges. -/
theorem sameEdge_of_held_eq
    {graph other : Graph}
    (hreach : graph.Reachable)
    (hreach' : other.Reachable)
    {id : String}
    (hheld : graph.held (.edge id) = other.held (.edge id)) :
    graph.SameEdge other id := by
  have hedge : Function.Injective Element.edge := by
    rintro edge other ⟨⟩
    rfl
  have hsame : graph.edges[id]? = other.edges[id]? := Option.map_injective hedge hheld
  refine ⟨hsame, ?_⟩
  rintro node edge rfl
  rw [hreach.shows.mem_departures, hreach'.shows.mem_departures, hsame]

end Graph

namespace Workshop

/-- Whatever is done about the file at a path, in whatever graph, leaves the edge of the id alone:
it is neither replaced nor moved nor removed. -/
def Spares (workshop : Workshop) (path : Path) (id : String) : Prop :=
  ∀ graph : Graph, graph.Reachable →
    ∀ changes : List Change,
      (∀ operation ∈ changes.flatMap Change.operations, operation.path = path) →
        (workshop.process graph changes).2.SameEdge graph id

section Separation

variable {workshop : Workshop} {path : Path} {source destination name : String}

theorem entryOf?_of_edge
    (hrole : workshop.settings.roleOf path = .edge source destination name) :
    workshop.entryOf? path = some (.edge (Edge.idOf source destination name)) := by
  rw [entryOf?, hrole]
  rfl

/-- A file that is gone leaves nothing under its entry. -/
theorem held_process_deleted
    (hbuiltin : workshop.registry.IsBuiltin)
    {entry : Graph.Entry}
    (hentry : workshop.entryOf? path = some entry)
    (graph : Graph) :
    (workshop.process graph [.deleted path]).2.held entry = none := by
  have hprocess :
      (workshop.process graph [.deleted path]).2 = (workshop.removePath graph path).2 := rfl
  rw [hprocess, removePath_eq hbuiltin hentry graph, removal, Graph.held_clear]
  exact Function.update_self ..

/-- A file leaves the edges alone that have another id than its own. -/
theorem spares_iff_ne
    (hbuiltin : workshop.registry.IsBuiltin)
    (hrole : workshop.settings.roleOf path = .edge source destination name)
    (id : String) :
    workshop.Spares path id ↔ Edge.idOf source destination name ≠ id := by
  have hentry := entryOf?_of_edge hrole
  constructor
  · rintro hspares rfl
    obtain ⟨edge, hid⟩ : ∃ edge : Edge, edge.id = Edge.idOf source destination name :=
      ⟨Edge.plain source destination name "" [], rfl⟩
    have hreach : (Graph.empty.update (.put (.edge edge))).2.Reachable :=
      ⟨[.put (.edge edge)], rfl⟩
    have habout :
        ∀ operation ∈ [Change.deleted path].flatMap Change.operations,
          operation.path = path := by
      simp [Change.operations, Change.deleted, Operation.path]
    have hkept := congrArg (Option.map Element.edge) (hspares _ hreach _ habout).held
    have hgone := held_process_deleted hbuiltin hentry (Graph.empty.update (.put (.edge edge))).2
    have hput := congrFun (Graph.empty.held_put (.edge edge)) (.edge edge.id)
    rw [Element.entry, Function.update_self, hid] at hput
    cases hgone.symm.trans (hkept.trans hput)
  · intro hother graph hreach changes habout
    refine Graph.sameEdge_of_held_eq ?_ hreach ?_
    · exact workshop.reachable_performAll hreach _
    · apply held_performAll_of_ne hbuiltin
      intro operation hoperation
      rw [habout operation hoperation, hentry]
      simpa using hother

/-- Two edge files never touch the edges of each other exactly if their ids differ, which is to say
that not all words of their names are the same.  They differ for different files whose sources and
whose destinations have equally many words. -/
theorem keepsApart_iff
    {mappings : List (String × String)}
    (hregistry : workshop.registry = .ofMappings mappings)
    (hrole : workshop.settings.roleOf path = .edge source destination name)
    {other : Path} {source' destination' name' : String}
    (hrole' : workshop.settings.roleOf other = .edge source' destination' name')
    (hdifferent : (source, destination, name) ≠ (source', destination', name')) :
    (workshop.Spares path (Edge.idOf source' destination' name') ∧
        workshop.Spares other (Edge.idOf source destination name) ↔
      Edge.idOf source destination name ≠ Edge.idOf source' destination' name') ∧
    (Edge.idOf source destination name = Edge.idOf source' destination' name' ↔
      Edge.words source ++ Edge.words destination ++ Edge.words name =
        Edge.words source' ++ Edge.words destination' ++ Edge.words name') ∧
    ((Edge.words source).length = (Edge.words source').length →
      (Edge.words destination).length = (Edge.words destination').length →
        Edge.idOf source destination name ≠ Edge.idOf source' destination' name') := by
  have hbuiltin : workshop.registry.IsBuiltin := by
    rw [hregistry]
    exact Registry.isBuiltin_ofMappings mappings
  refine ⟨?_, Edge.idOf_eq_iff, ?_⟩
  · rw [spares_iff_ne hbuiltin hrole, spares_iff_ne hbuiltin hrole', ne_comm, and_self, ne_comm]
  · intro hsource hdestination hid
    exact hdifferent (Edge.eq_of_idOf_eq hsource hdestination hid)

end Separation

theorem keepsApart_iff_depot :
    depot.settings.roleOf (.ofText "flowgraph/a_b/c/e.properties") = .edge "a_b" "c" "e" ∧
      depot.settings.roleOf (.ofText "flowgraph/a_c/b/e.properties") = .edge "a_c" "b" "e" ∧
      ("a_b", "c", "e") ≠ ("a_c", "b", "e") ∧
      depot.Spares (.ofText "flowgraph/a_b/c/e.properties") (Edge.idOf "a_c" "b" "e") ∧
      depot.Spares (.ofText "flowgraph/a_c/b/e.properties") (Edge.idOf "a_b" "c" "e") := by
  have hrole :
      depot.settings.roleOf (.ofText "flowgraph/a_b/c/e.properties") = .edge "a_b" "c" "e" := by
    decide
  have hrole' :
      depot.settings.roleOf (.ofText "flowgraph/a_c/b/e.properties") = .edge "a_c" "b" "e" := by
    decide
  have hdifferent : ("a_b", "c", "e") ≠ ("a_c", "b", "e") := by decide
  obtain ⟨hiff, -, hdiffer⟩ := keepsApart_iff rfl hrole hrole' hdifferent
  exact ⟨hrole, hrole', hdifferent, hiff.mpr (hdiffer (by decide) (by decide))⟩

/-- Where underscores are part of directory names, the end of one name and the start of the next can
be taken for each other. -/
theorem not_keepsApart :
    ¬ ∀ (workshop : Workshop) (mappings : List (String × String)) (path other : Path)
        (source destination name source' destination' name' : String),
        workshop.registry = .ofMappings mappings →
        workshop.settings.roleOf path = .edge source destination name →
        workshop.settings.roleOf other = .edge source' destination' name' →
        (source, destination, name) ≠ (source', destination', name') →
        workshop.Spares path (Edge.idOf source' destination' name') := by
  intro hapart
  have hrole :
      depot.settings.roleOf (.ofText "flowgraph/a/b_c/e.properties") = .edge "a" "b_c" "e" := by
    decide
  have hrole' :
      depot.settings.roleOf (.ofText "flowgraph/a_b/c/e.properties") = .edge "a_b" "c" "e" := by
    decide
  have hspares := hapart depot [("lake", "fs")] _ _ _ _ _ _ _ _ rfl hrole hrole' (by decide)
  have hbuiltin := Registry.isBuiltin_ofMappings [("lake", "fs")]
  exact (spares_iff_ne hbuiltin hrole _).mp hspares (by decide)

end Workshop

end HopRouting
