import HopRouting.Path
import HopRouting.Text.Blank

/-!
# Monitor settings

The settings say which repository holds the topology, where its working copy is, below which
directory of it the flow graph lies, which files are read, and how often changes are looked for.
Settings are checked before they are used: there has to be a repository, an interval, a directory
name and a kind of file to read.
-/

namespace HopRouting

/-- Settings of the monitor that follows a topology repository. -/
structure Settings where
  /-- Where the repository is kept. -/
  repositoryUri : Option String := none
  /-- Its working copy. -/
  repositoryDir : Path := .ofText "git-flowgraph"
  branch : String := "master"
  pollingSeconds : Nat := 60
  /-- The directory of the working copy below which the flow graph lies. -/
  graphDir : String := "gobblin-flowgraph"
  /-- Extensions of files that declare nodes and edges. -/
  propertyExtensions : List String := ["properties", "props"]
  /-- Extensions of files that only add properties to others. -/
  overlayExtensions : List String := ["configuration", "conf"]
  deriving DecidableEq

/-- Why settings cannot be used. -/
inductive SettingsError where
  | missing (name : String)
  | invalid (name value reason : String)
  /-- A text that denotes no settings. -/
  | unreadable
  /-- Metrics that cannot be exported. -/
  | metrics (reason : String)
  deriving DecidableEq

namespace SettingsError

/-- What is told about the error. -/
def message : SettingsError → String
  | missing name => s!"Required setting '{name}' is missing"
  | invalid name value reason => s!"Setting '{name}' has an invalid value '{value}': {reason}"
  | unreadable => "Failed to parse configuration"
  | metrics reason => s!"Failed to register compiler metrics: {reason}"

end SettingsError

namespace Settings

/-- Whether a repository is named. -/
def namesRepository (settings : Settings) : Bool :=
  settings.repositoryUri.any fun uri => Text.trim uri.toList ≠ []

/-- Checks the settings that the monitor cannot do without; the first fault is told. -/
def validate (settings : Settings) : Except SettingsError Unit :=
  if !settings.namesRepository then .error (.missing "repository_uri")
  else if settings.pollingSeconds = 0 then
    .error (.invalid "polling_interval_secs" "0" "polling interval must be positive")
  else if settings.graphDir = "" ∨ '/' ∈ settings.graphDir.toList then
    .error (.invalid "flowgraph_dir" settings.graphDir "must be a single directory name")
  else if settings.propertyExtensions = [] then .error (.missing "properties_extensions")
  else .ok ()

/-- The settings, if they pass the check. -/
def checked (settings : Settings) : Except SettingsError Settings := do
  settings.validate
  pure settings

/-- The settings with an interval of whole seconds, at least one. -/
def withPollingMilliseconds (settings : Settings) (milliseconds : Nat) : Settings :=
  { settings with pollingSeconds := max 1 (milliseconds / 1000) }

/-- The directory below which the flow graph lies. -/
def graphRoot (settings : Settings) : Path :=
  settings.repositoryDir.join (.ofText settings.graphDir)

end Settings

end HopRouting
