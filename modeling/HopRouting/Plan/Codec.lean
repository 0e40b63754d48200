import HopRouting.Codec.Basic
import HopRouting.Plan.Basic

/-!
# Plans as bytes

The parts of a plan are written in the order of their fields.  What is read as a plan may be
followed by further bytes.
-/

namespace HopRouting

/-- Capabilities as their two platforms. -/
def Capability.codec : Codec Capability :=
  (Codec.text.pair Codec.text).via (fun c => (c.source, c.destination)) (fun (s, d) => ⟨s, d⟩)

/-- Executors as class, declaration and capabilities. -/
def Executor.codec : Codec Executor :=
  (Codec.text.pair (Codec.propertySet.pair (Codec.list Capability.codec))).via
    (fun e => (e.className, e.config, e.capabilities))
    (fun (className, config, capabilities) => ⟨className, config, capabilities⟩)

/-- Jobs as URI, template URI, description and configuration. -/
def Job.codec : Codec Job :=
  (Codec.text.pair (Codec.text.pair (Codec.text.pair Codec.propertySet))).via
    (fun j => (j.uri, j.templateUri, j.description, j.config))
    (fun (uri, templateUri, description, config) => ⟨uri, templateUri, description, config⟩)

/-- Planned jobs as job and executor. -/
def PlannedJob.codec : Codec PlannedJob :=
  (Job.codec.pair Executor.codec).via (fun p => (p.job, p.executor)) (fun (j, e) => ⟨j, e⟩)

namespace Dag

variable {α : Type}

/-- Nodes as value, parents and children. -/
def nodeCodec (value : Codec α) : Codec (DagNode α) :=
  (value.pair ((Codec.list Codec.word).pair (Codec.list Codec.word))).via
    (fun n => (n.value, n.parents, n.children))
    (fun (value, parents, children) => ⟨value, parents, children⟩)

/-- Dependency graphs as the list of their nodes. -/
def codec (value : Codec α) : Codec (Dag α) :=
  (Codec.list (nodeCodec value)).via (·.nodes) (⟨·⟩)

end Dag

/-- The codec of plans. -/
def Plan.codec : Codec Plan := Dag.codec PlannedJob.codec

end HopRouting
