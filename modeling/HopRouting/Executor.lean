import HopRouting.Capability

/-!
# Executors

An executor is what can run a transfer: a class to run, the property block that declares it, and
the capabilities that the block lists.
-/

namespace HopRouting

/-- A declared executor. -/
structure Executor where
  className : String
  /-- The whole declaration, class and capabilities included. -/
  config : PropertySet
  capabilities : List Capability
  deriving DecidableEq

namespace Executor

/-- The executor whose declaration says no more than its class and its capabilities. -/
def ofCapabilities (className : String) (capabilities : List Capability) : Executor where
  className := className
  config := .ofList [(Key.executorClass, className),
    (Key.executorCapabilities, Capability.renderList capabilities)]
  capabilities := capabilities

/-- The executor that a property block declares. -/
def ofBlock (block : PropertySet) : Except DeclarationError Executor := do
  let className ← block.require Key.executorClass
  let capabilities ← Capability.parseList (block.valueOr Key.executorCapabilities "")
  pure { className, config := block, capabilities }

/-- Whether one of the executor's capabilities covers the required one. -/
def supports (executor : Executor) (required : Capability) : Bool :=
  executor.capabilities.any (·.covers required)

end Executor

end HopRouting
