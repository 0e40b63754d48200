import HopRouting.Capability
import HopRouting.Codec.Basic
import HopRouting.CommandLine.Arguments
import HopRouting.CommandLine.Run
import HopRouting.Compiler.Basic
import HopRouting.Compiler.Metrics
import HopRouting.Executor
import HopRouting.FileTree.Basic
import HopRouting.FileTree.Edit
import HopRouting.FileTree.Lookup
import HopRouting.Flow
import HopRouting.Json.Reader
import HopRouting.Key
import HopRouting.Main
import HopRouting.Path
import HopRouting.Plan.Basic
import HopRouting.Plan.Codec
import HopRouting.Plan.Dag
import HopRouting.Plan.Storage
import HopRouting.PropertySet.Basic
import HopRouting.PropertySet.Declaration
import HopRouting.PropertySet.File
import HopRouting.PropertySet.Parser
import HopRouting.Proofs.Route.Routes
import HopRouting.Proofs.Topology.Snapshots
import HopRouting.Proofs.Topology.Updates
import HopRouting.Route.Hop
import HopRouting.Route.Planner
import HopRouting.Route.Search
import HopRouting.Settings.Basic
import HopRouting.Settings.Sources
import HopRouting.Sync.Apply
import HopRouting.Sync.Change
import HopRouting.Sync.Layout
import HopRouting.Sync.Monitor
import HopRouting.Sync.Overlay
import HopRouting.Sync.Report
import HopRouting.Sync.Source
import HopRouting.Template.Basic
import HopRouting.Template.Catalog
import HopRouting.Template.CatalogError
import HopRouting.Text.Blank
import HopRouting.Text.Duration
import HopRouting.Text.Lossy
import HopRouting.Text.Number
import HopRouting.Topology.Builder
import HopRouting.Topology.Element
import HopRouting.Topology.Graph
import HopRouting.Topology.Registry
import HopRouting.Proofs.Route.Backtracking
import HopRouting.Proofs.Route.FirstRoute
import HopRouting.Proofs.Route.Verdicts
import HopRouting.Proofs.Route.Plans
import HopRouting.Proofs.Route.Correctness
import HopRouting.Proofs.Route.Delivery
import HopRouting.Proofs.Topology.Index
import HopRouting.Proofs.Files.Names
import HopRouting.Proofs.Sync.Roles
import HopRouting.Proofs.Topology.Builders
import HopRouting.Proofs.Sync.Effects
import HopRouting.Proofs.Files.Joins
import HopRouting.Proofs.Sync.Deletion
import HopRouting.Proofs.Files.Walks
import HopRouting.Proofs.Sync.Scans
import HopRouting.Proofs.Sync.Overlays
import HopRouting.Proofs.Sync.Batches
import HopRouting.Proofs.Sync.Mirror
import HopRouting.Proofs.Sync.Separation
import HopRouting.Proofs.Files.Descents
import HopRouting.Proofs.Sync.Confinement
import HopRouting.Proofs.Sync.Accounts
import HopRouting.Proofs.Sync.Survival
import HopRouting.Proofs.Sync.Freshness
import HopRouting.Proofs.Codec.RoundTrips
import HopRouting.Proofs.Files.Writes
import HopRouting.Proofs.Plan.Storage
import HopRouting.Proofs.Sync.Polls
import HopRouting.Proofs.Route.Growth
import HopRouting.Proofs.Route.Pruning
import HopRouting.Proofs.Sync.Identity
import HopRouting.Proofs.PropertySet.Written
import HopRouting.Proofs.Sync.Loops
import HopRouting.Proofs.Route.Lookups
import HopRouting.Proofs.Route.Jobs
import HopRouting.Proofs.PropertySet.LogicalLines
import HopRouting.Proofs.PropertySet.Escapes
import HopRouting.Proofs.Sync.Independence
import HopRouting.Proofs.Sync.Replays
import HopRouting.Proofs.Sync.Renames
import HopRouting.Proofs.Files.Parents
import HopRouting.Proofs.Files.Approaches
import HopRouting.Proofs.PropertySet.Layers
import HopRouting.Proofs.Sync.Nearest
import HopRouting.Proofs.Text.Numerals
import HopRouting.Proofs.PropertySet.Blocks
import HopRouting.Proofs.Topology.Executors
import HopRouting.Proofs.Topology.Spellings
import HopRouting.Proofs.Codec.Images
import HopRouting.Proofs.Plan.Links
import HopRouting.Proofs.Template.Uris
import HopRouting.Proofs.Text.Parts
import HopRouting.Proofs.Text.Bytes
import HopRouting.Proofs.Topology.Capabilities
import HopRouting.Proofs.Sync.Layouts
import HopRouting.Proofs.Route.Depth
