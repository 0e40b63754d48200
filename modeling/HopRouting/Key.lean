/-!
# Well-known property keys

The keys that declarations, templates, flows, jobs and the monitor settings are made of.
-/

namespace HopRouting.Key

/-- The value that stands for any platform or format. -/
def any : String := "*"

def nodeId : String := "data.node.id"
def nodeClass : String := "data.node.class"
def nodePlatform : String := "data.node.platform"
def nodeActive : String := "data.node.isActive"
/-- The location of a file system, whose scheme names the platform. -/
def nodeFileSystem : String := "data.node.fs.uri"

def edgeSource : String := "flow.edge.source"
def edgeDestination : String := "flow.edge.destination"
def edgeName : String := "flow.edge.name"
def edgeClass : String := "flow.edge.class"
def edgeTemplate : String := "flow.edge.flowTemplateUri"
def edgeActive : String := "flow.edge.isActive"
/-- The scope of the numbered executor blocks. -/
def edgeExecutors : String := "flow.edge.specExecutors"

def executorClass : String := "specExecInstance.class"
def executorCapabilities : String := "specExecInstance.capabilities"

/-- What every key begins with that describes a template and is no job default. -/
def templateScope : String := "template."
def templateDescription : String := "template.description"
def templateInputPlatform : String := "template.input.platform"
def templateInputFormat : String := "template.input.format"
def templateOutputPlatform : String := "template.output.platform"
def templateOutputFormat : String := "template.output.format"

def flowGroup : String := "flow.group"
def flowName : String := "flow.name"
def flowSource : String := "flow.sourceIdentifier"
def flowDestination : String := "flow.destinationIdentifier"
def flowInputFormat : String := "flow.input.format"
def flowOutputFormat : String := "flow.output.format"

def jobName : String := "job.name"
def jobEdge : String := "flow.edge.id"
def jobHopIndex : String := "job.hop.index"
def jobSource : String := "job.source.node"
def jobDestination : String := "job.destination.node"

def monitorRepositoryUri : String := "flowgraph.monitor.repositoryUri"
def monitorRepositoryDir : String := "flowgraph.monitor.repositoryDir"
def monitorBranch : String := "flowgraph.monitor.branch"
def monitorPollingInterval : String := "flowgraph.monitor.pollingInterval"
def monitorGraphDir : String := "flowgraph.monitor.flowGraphDir"
def monitorPropertyExtensions : String := "flowgraph.monitor.propertiesExtensions"
def monitorOverlayExtensions : String := "flowgraph.monitor.confExtensions"

end HopRouting.Key
