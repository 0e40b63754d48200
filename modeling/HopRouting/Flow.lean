import HopRouting.Key
import HopRouting.PropertySet.Declaration

/-!
# Flows and jobs

A flow asks for data to be moved from one node to another, arriving in a format.  A job is one
transfer that serves it.  Either can be handed in for planning, but only a flow can be planned.
-/

namespace HopRouting

/-- A request to move data between two nodes. -/
structure Flow where
  group : String
  name : String
  source : String
  destination : String
  /-- Format of the data at the source. -/
  inputFormat : String := Key.any
  /-- Format wanted at the destination. -/
  outputFormat : String := Key.any
  /-- Settings that override the defaults of every job. -/
  config : PropertySet := ∅
  deriving DecidableEq

/-- One transfer job. -/
structure Job where
  uri : String
  templateUri : String
  description : String
  config : PropertySet
  deriving DecidableEq

/-- What can be handed in for planning. -/
inductive Request where
  | flow (flow : Flow)
  | job (job : Job)
  deriving DecidableEq

namespace Request

/-- What kind of request it is. -/
def kind : Request → String
  | flow _ => "flow"
  | job _ => "job"

end Request

namespace Flow

/-- The flow that a property set declares; the whole set becomes its settings. -/
def ofProperties (properties : PropertySet) : Except DeclarationError Flow := do
  let group ← properties.require Key.flowGroup
  let name ← properties.require Key.flowName
  let source ← properties.require Key.flowSource
  let destination ← properties.require Key.flowDestination
  pure { group, name, source, destination,
         inputFormat := properties.valueOr Key.flowInputFormat Key.any
         outputFormat := properties.valueOr Key.flowOutputFormat Key.any
         config := properties }

end Flow

end HopRouting
