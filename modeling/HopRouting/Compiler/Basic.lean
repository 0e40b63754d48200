import HopRouting.Compiler.Metrics
import HopRouting.Route.Planner
import HopRouting.Sync.Monitor

/-!
# The compiler

A compiler plans flows over the graph that its monitor keeps, with the templates of its catalog,
and counts how that went.  It is built from parts, of which settings and catalog have to be given:
without a source it follows the working copy, and without a loader it reads files with the overlays
below the directory of the flow graph.
-/

namespace HopRouting

/-- Why a request is not planned. -/
inductive CompileError where
  | unsupported (kind : String)
  | unknownEndpoint (id : String)
  | noRoute (source destination : String)
  | internal (reason : String)
  deriving DecidableEq

namespace CompileError

/-- What is told about the error. -/
def message : CompileError → String
  | unsupported kind => s!"Compiler only accepts flow specs, received a {kind} spec"
  | unknownEndpoint id => s!"Unknown endpoint '{id}'"
  | noRoute source destination => s!"No path from '{source}' to '{destination}'"
  | internal reason => s!"Internal compiler error: {reason}"

/-- The error of a flow for which no route was found. -/
def ofRouteError : RouteError → CompileError
  | .unknownEndpoint id => unknownEndpoint id
  | .noRoute source destination => noRoute source destination
  | .template cause => internal cause.message

end CompileError

/-- What a compiler is built from. -/
structure CompilerParts where
  settings : Settings
  catalog : Option (FileTree → Catalog) := none
  source : Option Source := none
  loader : Option OverlayLoader := none
  registry : Registry := .builtin
  /-- Where metrics are exported, if they are. -/
  exports : Option MetricRegistry := none

/-- What plans flows. -/
structure Compiler where
  monitor : Monitor
  metrics : Metrics := {}

namespace CompilerParts

/-- The source that follows the working copy. -/
def defaultSource (settings : Settings) : Source :=
  .directory (.ofRoot settings.repositoryDir)

/-- The loader for files below the directory of the flow graph. -/
def defaultLoader (settings : Settings) : OverlayLoader where
  root := settings.graphRoot
  propertyExtensions := settings.propertyExtensions
  overlayExtensions := settings.overlayExtensions

/-- Exports the metrics of a new compiler, if they are to be. -/
def exportMetrics (parts : CompilerParts) : Except SettingsError (Option MetricRegistry) :=
  match parts.exports with
  | none => .ok none
  | some registry =>
    match registry.register (Metrics.names {}) with
    | .ok registry => .ok (some registry)
    | .error reason => .error (.metrics reason)

/-- Builds a compiler; answers also where its metrics are exported. -/
def build (parts : CompilerParts) : Except SettingsError (Compiler × Option MetricRegistry) := do
  parts.settings.validate
  let some catalog := parts.catalog | throw (.missing "template_catalog")
  let exports ← parts.exportMetrics
  let monitor : Monitor :=
    { settings := parts.settings
      registry := parts.registry
      loader := parts.loader.getD (defaultLoader parts.settings)
      catalog
      source := parts.source.getD (defaultSource parts.settings) }
  pure ({ monitor }, exports)

end CompilerParts

namespace Compiler

/-- The graph as a flow is to be routed over it. -/
def query (compiler : Compiler) (tree : FileTree) (flow : Flow) : RouteQuery where
  snapshot := compiler.monitor.graph.snapshot
  catalog := compiler.monitor.catalog tree
  flow := flow

/-- The plan that serves a request. -/
def plan (compiler : Compiler) (tree : FileTree) (request : Request) : Except CompileError Plan :=
  match request with
  | .flow flow => (compiler.query tree flow).findPlan.mapError .ofRouteError
  | .job _ => .error (.unsupported request.kind)

/-- Plans a request and counts how that went. -/
def compile (compiler : Compiler) (tree : FileTree) (request : Request) :
    Except CompileError Plan × Compiler :=
  match compiler.plan tree request with
  | .ok plan => (.ok plan, { compiler with metrics := compiler.metrics.recordSuccess })
  | .error cause => (.error cause, { compiler with metrics := compiler.metrics.recordFailure })

end Compiler

end HopRouting
