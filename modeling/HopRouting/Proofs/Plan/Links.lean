import Mathlib.Data.Finset.Card
import Mathlib.Data.Finset.Range
import Mathlib.Data.List.Sort
import Mathlib.Logic.Relation
import HopRouting.Proofs.Codec.Images
import HopRouting.Proofs.Plan.Storage
import HopRouting.Proofs.Route.Jobs

/-!
# The links of dependency graphs

A dependency graph is one in which the links lead to values (`Dag.InRange`), each link is told at
both of its ends (`Dag.Mirrored`), and no value waits for itself, be it through others.  `Dag.IsDag`
asks for all three.

**Orders.**  Whoever works a graph off needs an order in which every value comes after those it
waits for (`Dag.Orders`).  If a position is ranked by the number of positions that lead to it,
links lead to greater ranks unless they run in a circle (`Dag.IsDag.rank_lt`), so that a graph
without circles can be sorted by rank.

**Chains.**  The links of a chain lead from each position to the next, so chains are such graphs.

**Stored graphs.**  Bytes can hold any links between words: what can be read is what can be written
(`Dag.Encodable`), and neither depends on where the links lead.

**Results.**
* `Dag.isDag_iff_of_read`: a graph that was read obeys the law exactly if its links are in range,
  mirrored and can be put in order; nothing of it is asked of bytes.
* `Dag.not_isDag_of_read`: two jobs that wait for each other are read as a plan.
-/

namespace HopRouting

open Codec

namespace Dag

variable {α : Type}

/-- The positions that the node at a position has as its children. -/
def childrenAt (dag : Dag α) (position : Nat) : List Nat :=
  ((dag.get? position).map (·.children)).getD []

/-- The positions that the node at a position has as its parents. -/
def parentsAt (dag : Dag α) (position : Nat) : List Nat :=
  ((dag.get? position).map (·.parents)).getD []

/-- The second position is that of a child of the node at the first. -/
def HasChild (dag : Dag α) (position child : Nat) : Prop :=
  child ∈ dag.childrenAt position

/-- All parents and children are positions of nodes. -/
def InRange (dag : Dag α) : Prop :=
  ∀ node ∈ dag.nodes, ∀ position ∈ node.parents ++ node.children, position < dag.size

/-- A node is a parent of exactly its children. -/
def Mirrored (dag : Dag α) : Prop :=
  ∀ position < dag.size, ∀ other < dag.size,
    other ∈ dag.childrenAt position ↔ position ∈ dag.parentsAt other

/-- The law of directed acyclic graphs. -/
structure IsDag (dag : Dag α) : Prop where
  inRange : dag.InRange
  mirrored : dag.Mirrored
  acyclic : ∀ position, ¬ Relation.TransGen dag.HasChild position position

/-- Every position stands in the order once, and its children come after it. -/
structure Orders (dag : Dag α) (order : List Nat) : Prop where
  positions : order.Perm (List.range dag.size)
  sorted :
    ∀ position < dag.size, ∀ child ∈ dag.childrenAt position,
      order.idxOf position < order.idxOf child

instance (dag : Dag α) : Decidable dag.InRange :=
  inferInstanceAs
    (Decidable (∀ node ∈ dag.nodes, ∀ position ∈ node.parents ++ node.children,
      position < dag.size))

instance (dag : Dag α) : Decidable dag.Mirrored :=
  inferInstanceAs
    (Decidable (∀ position < dag.size, ∀ other < dag.size,
      other ∈ dag.childrenAt position ↔ position ∈ dag.parentsAt other))

section Links

variable {dag : Dag α} {position child : Nat}

theorem mem_childrenAt_iff :
    child ∈ dag.childrenAt position ↔
      ∃ node, dag.get? position = some node ∧ child ∈ node.children := by
  unfold childrenAt
  cases dag.get? position with
  | none => simp
  | some node => simp

theorem HasChild.lt_size
    (hchild : dag.HasChild position child) :
    position < dag.size := by
  obtain ⟨node, hnode, -⟩ := mem_childrenAt_iff.mp hchild
  exact (List.getElem?_eq_some_iff.mp hnode).1

theorem InRange.child_lt_size
    (hrange : dag.InRange)
    (hchild : dag.HasChild position child) :
    child < dag.size := by
  obtain ⟨node, hnode, hmem⟩ := mem_childrenAt_iff.mp hchild
  exact hrange node (List.mem_of_getElem? hnode) child (List.mem_append_right _ hmem)

/-- Links that lead to greater numbers do not run in a circle. -/
theorem not_transGen_of_lt
    (number : Nat → Nat)
    (hlt : ∀ position child, dag.HasChild position child → number position < number child)
    (position : Nat) :
    ¬ Relation.TransGen dag.HasChild position position := by
  intro hcircle
  have hbelow := hcircle.lift number hlt
  rw [Relation.transGen_eq_self] at hbelow
  exact Nat.lt_irrefl _ hbelow

/-- The number of positions from which links lead to this one. -/
noncomputable def rank (dag : Dag α) (position : Nat) : Nat :=
  open Classical in
  ((Finset.range dag.size).filter (Relation.TransGen dag.HasChild · position)).card

theorem IsDag.rank_lt
    (hdag : dag.IsDag)
    (hchild : dag.HasChild position child) :
    dag.rank position < dag.rank child := by
  classical
  unfold rank
  apply Finset.card_lt_card
  rw [Finset.ssubset_iff_of_subset]
  · refine ⟨position, ?_, ?_⟩
    · exact Finset.mem_filter.mpr ⟨Finset.mem_range.mpr hchild.lt_size, .single hchild⟩
    · intro hcircle
      exact hdag.acyclic position (Finset.mem_filter.mp hcircle).2
  · intro earlier hearlier
    obtain ⟨hlt, hpath⟩ := Finset.mem_filter.mp hearlier
    exact Finset.mem_filter.mpr ⟨hlt, hpath.tail hchild⟩

theorem IsDag.exists_orders
    (hdag : dag.IsDag) :
    ∃ order, dag.Orders order := by
  let byRank := Order.Preimage dag.rank (· ≤ ·)
  let order := (List.range dag.size).mergeSort (byRank · ·)
  have hperm : order.Perm (List.range dag.size) := List.mergeSort_perm _ _
  have hranks : order.Pairwise byRank := List.pairwise_mergeSort' byRank _
  refine ⟨order, hperm, ?_⟩
  intro position hposition child hchild
  have hmem : position ∈ order := hperm.mem_iff.mpr (List.mem_range.mpr hposition)
  have hmem' : child ∈ order :=
    hperm.mem_iff.mpr (List.mem_range.mpr (hdag.inRange.child_lt_size hchild))
  have hrank := hdag.rank_lt hchild
  by_contra hle
  have hbelow := List.idxOf_lt_length_of_mem hmem
  have hbelow' := List.idxOf_lt_length_of_mem hmem'
  rcases Nat.eq_or_lt_of_le (Nat.le_of_not_lt hle) with heq | hlt
  · rw [List.idxOf_inj hmem' |>.mp heq] at hrank
    exact Nat.lt_irrefl _ hrank
  · have hranked := List.pairwise_iff_getElem.mp hranks _ _ hbelow' hbelow hlt
    rw [List.getElem_idxOf, List.getElem_idxOf] at hranked
    exact Nat.not_lt_of_le hranked hrank

theorem isDag_iff_exists_orders :
    dag.IsDag ↔ dag.InRange ∧ dag.Mirrored ∧ ∃ order, dag.Orders order := by
  constructor
  · intro hdag
    exact ⟨hdag.inRange, hdag.mirrored, hdag.exists_orders⟩
  · rintro ⟨hrange, hmirrored, order, horders⟩
    refine ⟨hrange, hmirrored, not_transGen_of_lt order.idxOf ?_⟩
    intro position child hchild
    exact horders.sorted position hchild.lt_size child hchild

theorem IsChain.mem_children_iff
    {node : DagNode α}
    (hchain : dag.IsChain)
    (hnode : dag.get? position = some node) :
    child ∈ node.children ↔ position + 1 = child ∧ child < dag.size := by
  rw [(hchain position node hnode).2, List.mem_filter, List.mem_range, decide_eq_true_eq, and_comm,
    eq_comm]

theorem IsChain.mem_parents_iff
    {node : DagNode α} {parent : Nat}
    (hchain : dag.IsChain)
    (hnode : dag.get? position = some node) :
    parent ∈ node.parents ↔ parent + 1 = position := by
  have hlt : position < dag.size := (List.getElem?_eq_some_iff.mp hnode).1
  rw [(hchain position node hnode).1, List.mem_filter, List.mem_range, decide_eq_true_eq]
  omega

theorem IsChain.isDag
    (hchain : dag.IsChain) :
    dag.IsDag where
  inRange := by
    intro node hnode position hposition
    obtain ⟨place, hplace⟩ := List.mem_iff_getElem?.mp hnode
    have hlt : place < dag.size := (List.getElem?_eq_some_iff.mp hplace).1
    rcases List.mem_append.mp hposition with hparent | hchild
    · have hnext := (hchain.mem_parents_iff hplace).mp hparent
      omega
    · exact ((hchain.mem_children_iff hplace).mp hchild).2
  mirrored := by
    intro position hposition other hother
    have hnode : dag.get? position = some dag.nodes[position] := List.getElem?_eq_getElem hposition
    have hnode' : dag.get? other = some dag.nodes[other] := List.getElem?_eq_getElem hother
    simp only [childrenAt, parentsAt, hnode, hnode', Option.map_some, Option.getD_some,
      hchain.mem_children_iff hnode, hchain.mem_parents_iff hnode', hother, and_true]
  acyclic := by
    apply not_transGen_of_lt id
    intro position child hchild
    obtain ⟨node, hnode, hmem⟩ := mem_childrenAt_iff.mp hchild
    have hnext := ((hchain.mem_children_iff hnode).mp hmem).1
    exact Nat.lt_of_succ_le (Nat.le_of_eq hnext)

end Links

section Stored

variable {value : Codec α}

theorem codec_yields
    (hvalue : value.Yields value.ReadsBack) :
    (codec value).Yields (Encodable value) := by
  have hpositions := list_yields word_yields
  have hnode :
      (nodeCodec value).Yields (fun node => node.Positioned ∧ value.ReadsBack node.value) := by
    refine via_yields (pair_yields hvalue (pair_yields hpositions hpositions)) ?_
    rintro raw ⟨hread, hparents, hchildren⟩
    exact ⟨⟨hparents.1, hparents.2, hchildren.1, hchildren.2⟩, hread⟩
  refine via_yields (list_yields hnode) ?_
  rintro nodes ⟨hcount, hnodes⟩
  exact ⟨hcount, fun node hmem => (hnodes node hmem).1, fun node hmem => (hnodes node hmem).2⟩

theorem exists_ofBytes_eq_ok_iff
    (hvalue : value.Yields value.ReadsBack)
    {dag : Dag α} :
    (∃ bytes, ofBytes (codec value) bytes = .ok dag) ↔ dag.Encodable value := by
  simp only [ofBytes_eq_ok_iff]
  constructor
  · rintro ⟨bytes, rest, hread⟩
    exact codec_yields hvalue bytes dag rest hread
  · intro hdag
    exact ⟨_, [], hdag.readsBack []⟩

theorem exists_ofBytes_of_load
    {tree : FileTree} {path : Path} {dag : Dag α}
    (hload : load (codec value) tree path = .ok dag) :
    ∃ bytes, ofBytes (codec value) bytes = .ok dag := by
  unfold load at hload
  obtain ⟨bytes, -, hread⟩ := bind_eq_ok_iff.mp hload
  exact ⟨bytes, hread⟩

theorem load_of_save
    {dag : Dag α} {tree saved : FileTree} {path : Path}
    (hdag : dag.Encodable value)
    (hsave : save (codec value) dag tree path = .ok saved) :
    load (codec value) saved path = .ok dag := by
  rw [load_eq_ofBytes (read_of_save hsave), ofBytes_eq_ok_iff]
  refine ⟨[], ?_⟩
  have hread := hdag.readsBack []
  rwa [List.append_nil] at hread

end Stored

end Dag

section PlanValues

theorem Executor.codec_yields : Executor.codec.Yields Executor.Storable := by
  have hcapability : Capability.codec.Yields Capability.Storable :=
    via_yields (pair_yields text_yields text_yields) fun _ hraw => ⟨hraw.1, hraw.2⟩
  refine via_yields
    (pair_yields text_yields (pair_yields propertySet_yields (list_yields hcapability))) ?_
  rintro raw ⟨hclass, hconfig, hcount, hcapabilities⟩
  exact ⟨hclass, ⟨hconfig.1, hconfig.2⟩, hcount, hcapabilities⟩

theorem Job.codec_yields : Job.codec.Yields Job.Storable := by
  refine via_yields
    (pair_yields text_yields (pair_yields text_yields (pair_yields text_yields propertySet_yields)))
    ?_
  rintro raw ⟨huri, htemplate, hdescription, hconfig⟩
  exact ⟨huri, htemplate, hdescription, ⟨hconfig.1, hconfig.2⟩⟩

theorem PlannedJob.codec_yields : PlannedJob.codec.Yields PlannedJob.codec.ReadsBack := by
  refine via_yields (pair_yields Job.codec_yields Executor.codec_yields) ?_
  rintro raw ⟨hjob, hexecutor⟩
  exact PlannedJob.readsBack hjob hexecutor

end PlanValues

namespace Plan

/-- The job of all plans below, of which only the links matter. -/
def ferryJob : PlannedJob where
  job :=
    { uri := "ferries/ferry/A_B_boat"
      templateUri := "FS:///pass-on.template"
      description := ""
      config := ∅ }
  executor := .ofCapabilities "copy" [⟨Key.any, Key.any⟩]

theorem readsBack_ferryJob : PlannedJob.codec.ReadsBack ferryJob := by
  apply PlannedJob.readsBack
  · exact
      { uri := by decide +kernel
        templateUri := by decide +kernel
        description := by decide +kernel
        config := ⟨by decide +kernel, by decide +kernel⟩ }
  · exact
      { className := by decide +kernel
        config := ⟨by decide +kernel, by decide +kernel⟩
        count := by decide
        capabilities := List.forall_mem_singleton.mpr ⟨by decide +kernel, by decide +kernel⟩ }

/-- The job with such neighbours at each position. -/
def ferries (links : List (List Nat × List Nat)) : Plan :=
  ⟨links.map fun (parents, children) => ⟨ferryJob, parents, children⟩⟩

theorem encodable_ferries
    {links : List (List Nat × List Nat)}
    (hcount : links.length < wordLimit)
    (hlinks :
      ∀ link ∈ links,
        (link.1.length < wordLimit ∧ ∀ position ∈ link.1, position < wordLimit) ∧
        link.2.length < wordLimit ∧ ∀ position ∈ link.2, position < wordLimit) :
    (ferries links).Encodable PlannedJob.codec where
  count := by
    rw [ferries, List.length_map]
    exact hcount
  positioned := by
    intro node hnode
    obtain ⟨link, hlink, rfl⟩ := List.mem_map.mp hnode
    obtain ⟨hparents, hchildren⟩ := hlinks link hlink
    exact ⟨hparents.1, hparents.2, hchildren.1, hchildren.2⟩
  values := by
    intro node hnode
    obtain ⟨link, -, rfl⟩ := List.mem_map.mp hnode
    exact readsBack_ferryJob

/-- The first job is waited for by the two after it, and the last one waits for both. -/
def fork : Plan := ferries [([], [1, 2]), ([0], [3]), ([0], [3]), ([1, 2], [])]

/-- Two jobs that wait for each other. -/
def shuttle : Plan := ferries [([1], [1]), ([0], [0])]

end Plan

namespace Dag

/-- A chain obeys the law of directed acyclic graphs.  A graph that was read obeys it exactly if its
links are in range, mirrored, and can be put in an order; bytes and files are asked for nothing of
that, but only for values and for words. -/
theorem isDag_iff_of_read
    {α : Type} {value : Codec α}
    (hvalue : value.Yields value.ReadsBack) :
    (∀ values : List α, (chain values).IsDag) ∧
    ∀ dag : Dag α,
      (dag.IsDag ↔ dag.InRange ∧ dag.Mirrored ∧ ∃ order, dag.Orders order) ∧
      ((∃ bytes, ofBytes (codec value) bytes = .ok dag) ↔ dag.Encodable value) ∧
      (∀ tree path, load (codec value) tree path = .ok dag → dag.Encodable value) ∧
      ∀ tree path saved, dag.Encodable value → save (codec value) dag tree path = .ok saved →
        load (codec value) saved path = .ok dag := by
  refine ⟨fun values => (isChain_chain values).isDag, ?_⟩
  intro dag
  refine ⟨isDag_iff_exists_orders, exists_ofBytes_eq_ok_iff hvalue, ?_, ?_⟩
  · intro tree path hload
    exact (exists_ofBytes_eq_ok_iff hvalue).mp (exists_ofBytes_of_load hload)
  · intro tree path saved hdag hsave
    exact load_of_save hdag hsave

theorem isDag_iff_of_read_fork :
    Plan.fork.IsDag ∧ ∃ bytes, ofBytes Plan.codec bytes = .ok Plan.fork := by
  obtain ⟨-, hread⟩ := isDag_iff_of_read PlannedJob.codec_yields
  obtain ⟨hlaw, hbytes, -, -⟩ := hread Plan.fork
  refine ⟨hlaw.mpr ⟨by decide, by decide, [0, 2, 1, 3], ?_⟩, hbytes.mpr ?_⟩
  · exact ⟨by decide, by decide⟩
  · exact Plan.encodable_ferries (by decide) (by decide)

/-- Two jobs that wait for each other are read as a plan. -/
theorem not_isDag_of_read :
    ¬ ∀ (bytes : List UInt8) (plan : Plan), ofBytes Plan.codec bytes = .ok plan → plan.IsDag := by
  intro hlaw
  have hencodable : Plan.shuttle.Encodable PlannedJob.codec :=
    Plan.encodable_ferries (by decide) (by decide)
  have hread : ofBytes Plan.codec (Plan.codec.encode Plan.shuttle ++ []) = .ok Plan.shuttle :=
    ofBytes_eq_ok_iff.mpr ⟨[], hencodable.readsBack []⟩
  have hthere : Plan.shuttle.HasChild 0 1 := by
    show 1 ∈ Plan.shuttle.childrenAt 0
    decide
  have hback : Plan.shuttle.HasChild 1 0 := by
    show 0 ∈ Plan.shuttle.childrenAt 1
    decide
  exact (hlaw _ _ hread).acyclic 0 (.tail (.single hthere) hback)

end Dag

end HopRouting
