import HopRouting.Plan.Codec
import HopRouting.Plan.Storage
import HopRouting.Proofs.Codec.RoundTrips
import HopRouting.Proofs.Files.Writes

/-!
# Plans that are stored

A plan is storable if its positions are words, and if words can tell how long its texts and lists
are.  That is all that is asked of it: the texts may be any, the lists of any length a word can
tell, and positions need not be those of nodes.

**Results.**
* `load_save`: a storable plan is read back from its bytes, whatever follows them, and from the file
  it was saved to; no other storable plan has the same bytes.
* `truncated_refused`: what was cut off before the end of those bytes is no plan.
-/

namespace HopRouting

open Codec

/-- The length of the text is a word. -/
def StorableText (text : String) : Prop :=
  text.utf8ByteSize < wordLimit

instance (text : String) : Decidable (StorableText text) :=
  inferInstanceAs (Decidable (text.utf8ByteSize < wordLimit))

/-- The number of entries is a word, and the entries are storable. -/
structure PropertySet.Storable (properties : PropertySet) : Prop where
  size : properties.size < wordLimit
  entries : ∀ entry ∈ properties.toList, StorableText entry.1 ∧ StorableText entry.2

structure Capability.Storable (capability : Capability) : Prop where
  source : StorableText capability.source
  destination : StorableText capability.destination

structure Executor.Storable (executor : Executor) : Prop where
  className : StorableText executor.className
  config : executor.config.Storable
  count : executor.capabilities.length < wordLimit
  capabilities : ∀ capability ∈ executor.capabilities, capability.Storable

structure Job.Storable (job : Job) : Prop where
  uri : StorableText job.uri
  templateUri : StorableText job.templateUri
  description : StorableText job.description
  config : job.config.Storable

/-- The positions of the neighbours of a node, and the numbers of them, are words. -/
structure DagNode.Positioned {α : Type} (node : DagNode α) : Prop where
  parentCount : node.parents.length < wordLimit
  parents : ∀ position ∈ node.parents, position < wordLimit
  childCount : node.children.length < wordLimit
  children : ∀ position ∈ node.children, position < wordLimit

/-- Words can tell all numbers that a plan is written with: lengths and positions. -/
structure Plan.Storable (plan : Plan) : Prop where
  count : plan.nodes.length < wordLimit
  positioned : ∀ node ∈ plan.nodes, node.Positioned
  job : ∀ node ∈ plan.nodes, node.value.job.Storable
  executor : ∀ node ∈ plan.nodes, node.value.executor.Storable

section RoundTrips

theorem PropertySet.Storable.readsBack
    {properties : PropertySet}
    (hproperties : properties.Storable) :
    propertySet.ReadsBack properties :=
  propertySet_readsBack hproperties.size hproperties.entries

theorem Capability.Storable.readsBack
    {capability : Capability}
    (hcapability : capability.Storable) :
    Capability.codec.ReadsBack capability := by
  apply via_readsBack
  · exact pair_readsBack (text_readsBack hcapability.source)
      (text_readsBack hcapability.destination)
  · rfl

theorem Executor.Storable.readsBack
    {executor : Executor}
    (hexecutor : executor.Storable) :
    Executor.codec.ReadsBack executor := by
  apply via_readsBack
  · refine pair_readsBack (text_readsBack hexecutor.className) ?_
    refine pair_readsBack hexecutor.config.readsBack ?_
    apply list_readsBack hexecutor.count
    intro capability hcapability
    exact (hexecutor.capabilities capability hcapability).readsBack
  · rfl

theorem Job.Storable.readsBack
    {job : Job}
    (hjob : job.Storable) :
    Job.codec.ReadsBack job := by
  apply via_readsBack
  · refine pair_readsBack (text_readsBack hjob.uri) ?_
    refine pair_readsBack (text_readsBack hjob.templateUri) ?_
    exact pair_readsBack (text_readsBack hjob.description) hjob.config.readsBack
  · rfl

theorem PlannedJob.readsBack
    {planned : PlannedJob}
    (hjob : planned.job.Storable)
    (hexecutor : planned.executor.Storable) :
    PlannedJob.codec.ReadsBack planned := by
  apply via_readsBack
  · exact pair_readsBack hjob.readsBack hexecutor.readsBack
  · rfl

theorem DagNode.Positioned.readsBack
    {α : Type} {value : Codec α} {node : DagNode α}
    (hpositioned : node.Positioned)
    (hvalue : value.ReadsBack node.value) :
    (Dag.nodeCodec value).ReadsBack node := by
  apply via_readsBack
  · apply pair_readsBack hvalue
    apply pair_readsBack
    · apply list_readsBack hpositioned.parentCount
      intro position hposition
      exact word_readsBack (hpositioned.parents position hposition)
    · apply list_readsBack hpositioned.childCount
      intro position hposition
      exact word_readsBack (hpositioned.children position hposition)
  · rfl

/-- Words can tell the number of nodes and the positions in them, and the values are read back.
Where the links lead does not matter. -/
structure Dag.Encodable {α : Type} (value : Codec α) (dag : Dag α) : Prop where
  count : dag.nodes.length < wordLimit
  positioned : ∀ node ∈ dag.nodes, node.Positioned
  values : ∀ node ∈ dag.nodes, value.ReadsBack node.value

theorem Dag.Encodable.readsBack
    {α : Type} {value : Codec α} {dag : Dag α}
    (hdag : dag.Encodable value) :
    (Dag.codec value).ReadsBack dag := by
  apply via_readsBack
  · apply list_readsBack hdag.count
    intro node hnode
    exact (hdag.positioned node hnode).readsBack (hdag.values node hnode)
  · rfl

theorem Plan.Storable.readsBack
    {plan : Plan}
    (hplan : plan.Storable) :
    Plan.codec.ReadsBack plan := by
  apply Dag.Encodable.readsBack
  refine ⟨hplan.count, hplan.positioned, ?_⟩
  intro node hnode
  exact PlannedJob.readsBack (hplan.job node hnode) (hplan.executor node hnode)

end RoundTrips

section SelfDelimiting

theorem Executor.codec_selfDelimiting : Executor.codec.SelfDelimiting := by
  apply via_selfDelimiting
  apply pair_selfDelimiting text_selfDelimiting
  apply pair_selfDelimiting propertySet_selfDelimiting
  apply list_selfDelimiting
  exact via_selfDelimiting (pair_selfDelimiting text_selfDelimiting text_selfDelimiting)

theorem Job.codec_selfDelimiting : Job.codec.SelfDelimiting := by
  apply via_selfDelimiting
  apply pair_selfDelimiting text_selfDelimiting
  apply pair_selfDelimiting text_selfDelimiting
  exact pair_selfDelimiting text_selfDelimiting propertySet_selfDelimiting

theorem Dag.codec_selfDelimiting
    {α : Type} {value : Codec α}
    (hvalue : value.SelfDelimiting) :
    (Dag.codec value).SelfDelimiting := by
  apply via_selfDelimiting
  apply list_selfDelimiting
  apply via_selfDelimiting
  apply pair_selfDelimiting hvalue
  exact pair_selfDelimiting (list_selfDelimiting word_selfDelimiting)
    (list_selfDelimiting word_selfDelimiting)

theorem Plan.codec_selfDelimiting : Plan.codec.SelfDelimiting := by
  apply Dag.codec_selfDelimiting
  apply via_selfDelimiting
  exact pair_selfDelimiting Job.codec_selfDelimiting Executor.codec_selfDelimiting

end SelfDelimiting

namespace Dag

section Load

variable {α : Type} {codec : Codec (Dag α)} {tree : FileTree} {path : Path} {bytes : List UInt8}

theorem ofBytes_eq_ok_iff
    {dag : Dag α} :
    ofBytes codec bytes = .ok dag ↔ ∃ rest, codec.decode bytes = some (dag, rest) := by
  unfold ofBytes
  cases codec.decode bytes with
  | none => simp
  | some found => simp [Prod.ext_iff]

theorem ofBytes_of_decode_eq_none
    (hnone : codec.decode bytes = none) :
    ofBytes codec bytes = .error .malformed := by
  simp only [ofBytes, hnone]

theorem load_eq_ofBytes
    (hread : tree.read path = .ok bytes) :
    load codec tree path = ofBytes codec bytes := by
  simp only [load, hread]
  rfl

/-- What a dependency graph was saved to holds its bytes. -/
theorem read_of_save
    {dag : Dag α} {saved : FileTree}
    (hsave : save codec dag tree path = .ok saved) :
    saved.read path = .ok (codec.encode dag) := by
  unfold save at hsave
  cases hwrite : tree.write path (codec.encode dag) with
  | error cause =>
      rw [hwrite] at hsave
      cases hsave
  | ok written =>
      rw [hwrite] at hsave
      cases hsave
      exact FileTree.read_of_write hwrite

end Load

end Dag

namespace Plan

section WideNumbers

/-- A job with texts of which not all characters are one byte. -/
def wideJob : Job where
  uri := "relays/relay/A_B_fast"
  templateUri := "FS:///pass-on.template"
  description := String.ofList (List.replicate 126 'é')
  config := .ofList [(Key.jobName, "größe"), (Key.jobHopIndex, "")]

def wideExecutor : Executor :=
  .ofCapabilities "copy" [⟨"hdfs", Key.any⟩, ⟨Key.any, "adl"⟩]

/-- A plan with numbers on both sides of each bound between the forms of a word. -/
def wide : Plan where
  nodes :=
    [{ value := ⟨wideJob, wideExecutor⟩
       parents := [250, 251, 0xFFFF, 0x10000, 0xFFFFFFFF, 0x100000000, 0xFFFFFFFFFFFFFFFF]
       children := [] }]

theorem storable_wideJob : wideJob.Storable where
  uri := by decide +kernel
  templateUri := by decide +kernel
  description := by decide +kernel
  config := ⟨by decide +kernel, by decide +kernel⟩

theorem storable_wideExecutor : wideExecutor.Storable where
  className := by decide +kernel
  config := ⟨by decide +kernel, by decide +kernel⟩
  count := by decide
  capabilities := by
    intro capability hcapability
    rcases List.mem_pair.mp hcapability with rfl | rfl
    · exact ⟨by decide +kernel, by decide +kernel⟩
    · exact ⟨by decide +kernel, by decide +kernel⟩

theorem storable_wide : wide.Storable where
  count := by decide
  positioned :=
    List.forall_mem_singleton.mpr
      ⟨by decide, by decide +kernel, by decide, by decide⟩
  job := List.forall_mem_singleton.mpr storable_wideJob
  executor := List.forall_mem_singleton.mpr storable_wideExecutor

end WideNumbers

section Results

variable {plan : Plan}

/-- A storable plan is read back from its bytes, whatever follows them; no other storable plan has
the same bytes; and the plan is read back from the file that it was saved to. -/
theorem load_save
    (hplan : plan.Storable) :
    (∀ rest, Dag.ofBytes codec (codec.encode plan ++ rest) = .ok plan) ∧
    (∀ other : Plan, other.Storable → codec.encode other = codec.encode plan → other = plan) ∧
    ∀ tree path saved, Dag.save codec plan tree path = .ok saved →
      saved.read path = .ok (codec.encode plan) ∧ Dag.load codec saved path = .ok plan := by
  have hbytes : ∀ rest, Dag.ofBytes codec (codec.encode plan ++ rest) = .ok plan := by
    intro rest
    exact Dag.ofBytes_eq_ok_iff.mpr ⟨rest, hplan.readsBack rest⟩
  refine ⟨hbytes, ?_, ?_⟩
  · intro other hother hsame
    have happend : codec.encode other ++ [] = codec.encode plan ++ [] := by rw [hsame]
    exact (hother.readsBack.eq_of_append_eq hplan.readsBack happend).1
  · intro tree path saved hsave
    have hread := Dag.read_of_save hsave
    have hwhole := hbytes []
    rw [List.append_nil] at hwhole
    exact ⟨hread, (Dag.load_eq_ofBytes hread).trans hwhole⟩

theorem load_save_wide :
    Dag.ofBytes codec (codec.encode wide ++ [255]) = .ok wide ∧
    ∃ saved,
      Dag.save codec wide (.empty (.ofText "work")) (.ofText "plan.bin") = .ok saved ∧
      Dag.load codec saved (.ofText "plan.bin") = .ok wide := by
  obtain ⟨hbytes, -, hfile⟩ := load_save storable_wide
  have hok :
      (Dag.save codec wide (.empty (.ofText "work")) (.ofText "plan.bin")).isOk = true := by
    decide +kernel
  cases hsave : Dag.save codec wide (.empty (.ofText "work")) (.ofText "plan.bin") with
  | ok saved => exact ⟨hbytes [255], saved, rfl, (hfile _ _ _ hsave).2⟩
  | error cause =>
      rw [hsave] at hok
      cases hok

/-- A beginning of the bytes of a plan, other than all of them, is refused, also when it is what is
left in a file. -/
theorem truncated_refused
    (hplan : plan.Storable)
    {bytes : List UInt8}
    (hcut : bytes <+: codec.encode plan)
    (hshort : bytes ≠ codec.encode plan) :
    Dag.ofBytes codec bytes = .error .malformed ∧
    ∀ (tree : FileTree) (path : Path), tree.read path = .ok bytes →
      Dag.load codec tree path = .error .malformed := by
  have hnone := hplan.readsBack.decode_eq_none codec_selfDelimiting hcut hshort
  have hrefused := Dag.ofBytes_of_decode_eq_none hnone
  refine ⟨hrefused, ?_⟩
  intro tree path hread
  exact (Dag.load_eq_ofBytes hread).trans hrefused

theorem truncated_refused_wide :
    300 < (codec.encode wide).length ∧
      Dag.ofBytes codec ((codec.encode wide).take 300) = .error .malformed := by
  have hlength : 300 < (codec.encode wide).length := by decide +kernel
  refine ⟨hlength, (truncated_refused storable_wide (List.take_prefix 300 _) ?_).1⟩
  intro hwhole
  have hsame : 300 = (codec.encode wide).length := by
    rw [← hwhole, List.length_take]
    omega
  omega

end Results

end Plan

end HopRouting
