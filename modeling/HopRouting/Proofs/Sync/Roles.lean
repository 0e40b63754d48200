import HopRouting.Proofs.Answers
import HopRouting.Proofs.Files.Joins
import HopRouting.Proofs.Files.Names
import HopRouting.Proofs.Topology.Updates
import HopRouting.Sync.Layout

/-!
# Roles of paths

A path that has the role of a node or an edge names an entry of the graph: the node with the id that
the path tells, or the edge with the id that its end points and its name are given by
`Edge.idOf`.  `PathRole.entry?` is that entry.

None of the words that a path tells of an edge is empty, so each of them is accepted where a
declaration needs a value.
-/

namespace HopRouting

namespace PathRole

/-- The entry of the graph that a file in the role declares. -/
def entry? : PathRole → Option Graph.Entry
  | node id => some (.node id)
  | edge source destination name => some (.edge (Edge.idOf source destination name))
  | skipped _ => none
  | ignored => none

end PathRole

namespace Settings

variable {settings : Settings} {path : Path}

/-- The names of a path. -/
def namesOf (path : Path) : List Name :=
  path.components.filterMap Component.name?

theorem ordinary_of_mem_namesOf
    {name : Name}
    (hmem : name ∈ namesOf path) :
    name.Ordinary := by
  obtain ⟨component, hcomponent, hname⟩ := List.mem_filterMap.mp hmem
  cases component with
  | name n =>
      cases hname
      exact Path.ordinary_of_mem_components hcomponent
  | root => cases hname
  | here => cases hname
  | up => cases hname

theorem namesOf_ofNames
    {names : List Name}
    (hnames : OrdinaryNames names) :
    namesOf (.ofNames names) = names := by
  rw [namesOf, Path.components_ofNames hnames, List.filterMap_map]
  exact List.filterMap_some

theorem roleUnless_eq
    {top : String} {role : String → PathRole} {result : PathRole}
    (hrole : settings.roleUnless path top role = result)
    (hskipped : ∀ reason, result ≠ .skipped reason)
    (hignored : result ≠ .ignored) :
    settings.skipReason? path top = none ∧
      ∃ stem, path.stem?.bind Name.text? = some stem ∧ role stem = result := by
  unfold roleUnless at hrole
  split at hrole
  · exact absurd hrole.symm (hskipped _)
  · next hkept =>
    split at hrole
    · next stem hstem => exact ⟨hkept, stem, hstem, hrole⟩
    · exact absurd hrole.symm hignored

theorem roleUnless_of_kept
    {top stem : String}
    (hkept : settings.skipReason? path top = none)
    (hstem : path.stem?.bind Name.text? = some stem)
    (role : String → PathRole) :
    settings.roleUnless path top role = role stem := by
  rw [roleUnless, hkept, hstem]

/-- The path of a node is three names deep, and the second one is the id. -/
theorem exists_names_of_roleOf_node
    {id : String}
    (hrole : settings.roleOf path = .node id) :
    ∃ top own last,
      namesOf path = [top, own, last] ∧
      own.text? = some id ∧
      ∃ text, top.text? = some text ∧ settings.skipReason? path text = none := by
  unfold roleOf at hrole
  split at hrole
  · next text _ _ hnames =>
    obtain ⟨hkept, stem, -, hresult⟩ := roleUnless_eq hrole (by simp) (by simp)
    cases hresult
    have htexts := forall₂_of_mapM_eq_some hnames
    simp only [List.forall₂_cons_right_iff, List.forall₂_nil_right_iff] at htexts
    obtain ⟨top, _, htop, ⟨own, _, hown, ⟨last, _, -, rfl, rfl⟩, rfl⟩, hpath⟩ := htexts
    exact ⟨top, own, last, hpath, hown, text, htop, hkept⟩
  · obtain ⟨-, stem, -, hresult⟩ := roleUnless_eq hrole (by simp) (by simp)
    cases hresult
  · cases hrole

/-- The path of an edge is four names deep. -/
theorem exists_names_of_roleOf_edge
    {source destination name : String}
    (hrole : settings.roleOf path = .edge source destination name) :
    ∃ top first second last,
      namesOf path = [top, first, second, last] ∧
      first.text? = some source ∧
      second.text? = some destination ∧
      path.stem?.bind Name.text? = some name ∧
      ∃ text, top.text? = some text ∧ settings.skipReason? path text = none := by
  unfold roleOf at hrole
  split at hrole
  · obtain ⟨-, stem, -, hresult⟩ := roleUnless_eq hrole (by simp) (by simp)
    cases hresult
  · next text _ _ _ hnames =>
    obtain ⟨hkept, stem, hstem, hresult⟩ := roleUnless_eq hrole (by simp) (by simp)
    cases hresult
    have htexts := forall₂_of_mapM_eq_some hnames
    simp only [List.forall₂_cons_right_iff, List.forall₂_nil_right_iff] at htexts
    obtain ⟨top, _, htop, ⟨first, _, hfirst, ⟨second, _, hsecond,
      ⟨last, _, -, rfl, rfl⟩, rfl⟩, rfl⟩, hpath⟩ := htexts
    exact ⟨top, first, second, last, hpath, hfirst, hsecond, hstem, text, htop, hkept⟩
  · cases hrole

/-- A path is not skipped if its extension is one of those that declare something and it lies below
the directory of the flow graph. -/
theorem skipReason?_eq_none_iff
    {top : String} :
    settings.skipReason? path top = none ↔
      path.extensionText?.getD "" ∈ settings.propertyExtensions ∧ top = settings.graphDir := by
  unfold skipReason?
  dsimp only
  generalize path.extensionText?.getD "" = extension
  by_cases hextension : extension ∈ settings.propertyExtensions
  · simp [hextension]
  · by_cases hoverlay : extension ∈ settings.overlayExtensions
    · simp [hextension, hoverlay]
    · simp [hextension, hoverlay]

/-- A path that names an entry leads through the directory of the flow graph. -/
theorem exists_names_of_entry?
    {entry : Graph.Entry}
    (hentry : PathRole.entry? (settings.roleOf path) = some entry) :
    ∃ back last, namesOf path = [Text.bytes settings.graphDir] ++ back ++ [last] := by
  cases hrole : settings.roleOf path with
  | node id =>
      obtain ⟨top, own, last, hnames, -, text, htext, hkept⟩ := exists_names_of_roleOf_node hrole
      refine ⟨[own], last, ?_⟩
      rw [← (skipReason?_eq_none_iff.mp hkept).2, Name.bytes_of_text? htext, hnames]
      rfl
  | edge source destination name =>
      obtain ⟨top, first, second, last, hnames, -, -, -, text, htext, hkept⟩ :=
        exists_names_of_roleOf_edge hrole
      refine ⟨[first, second], last, ?_⟩
      rw [← (skipReason?_eq_none_iff.mp hkept).2, Name.bytes_of_text? htext, hnames]
      rfl
  | skipped reason =>
      rw [hrole] at hentry
      cases hentry
  | ignored =>
      rw [hrole] at hentry
      cases hentry

theorem words_ne_empty_of_roleOf_edge
    {source destination name : String}
    (hrole : settings.roleOf path = .edge source destination name) :
    source ≠ "" ∧ destination ≠ "" ∧ name ≠ "" := by
  obtain ⟨top, first, second, last, hnames, hfirst, hsecond, hname, -⟩ :=
    exists_names_of_roleOf_edge hrole
  have hordinary : ∀ n ∈ [top, first, second, last], n.Ordinary := by
    intro n hn
    rw [← hnames] at hn
    exact ordinary_of_mem_namesOf hn
  have hsome := Option.bind_eq_some_iff.mp hname
  obtain ⟨stem, hstem, htext⟩ := hsome
  obtain ⟨file, hfile, rfl⟩ := Option.map_eq_some_iff.mp hstem
  refine ⟨?_, ?_, ?_⟩
  · exact Name.text_ne_empty hfirst (hordinary first (by simp)).ne_nil
  · exact Name.text_ne_empty hsecond (hordinary second (by simp)).ne_nil
  · exact Name.text_ne_empty htext (Name.stem_ne_nil (Path.ordinary_of_fileName? hfile).ne_nil)

end Settings

end HopRouting
