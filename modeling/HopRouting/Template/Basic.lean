import HopRouting.Key
import HopRouting.PropertySet.Basic

/-!
# Templates

A template describes a kind of transfer job: the dataset it reads, the dataset it writes, and the
configuration that every job made from it starts with.  Platforms and formats of datasets may be
`*`, which agrees with everything.
-/

namespace HopRouting

/-- Data stored on a platform in a format. -/
structure Dataset where
  platform : String
  format : String
  deriving DecidableEq

namespace Dataset

/-- A dataset of any format on any platform. -/
def any : Dataset := ⟨Key.any, Key.any⟩

/-- A dataset of any format on the platform. -/
def onPlatform (platform : String) : Dataset := ⟨platform, Key.any⟩

/-- Two platforms, or two formats, agree if they are equal or one of them is `*`. -/
def agree (a b : String) : Bool :=
  a = Key.any || b = Key.any || a = b

/-- Whether both the platforms and the formats agree. -/
def isCompatible (a b : Dataset) : Bool :=
  agree a.platform b.platform && agree a.format b.format

end Dataset

/-- A reusable description of a transfer job. -/
structure Template where
  uri : String
  description : String
  /-- What a job can read. -/
  input : Dataset
  /-- What a job writes. -/
  output : Dataset
  /-- Defaults for the configuration of every job. -/
  config : PropertySet
  deriving DecidableEq

namespace Template

/-- Whether a property describes the template and is no job default. -/
def isDescription (key : String) : Bool :=
  Key.templateScope.toList.isPrefixOf key.toList

/-- The template that a property set declares. -/
def ofProperties (uri : String) (properties : PropertySet) : Template where
  uri := uri
  description := properties.valueOr Key.templateDescription ""
  input := ⟨properties.valueOr Key.templateInputPlatform Key.any,
    properties.valueOr Key.templateInputFormat Key.any⟩
  output := ⟨properties.valueOr Key.templateOutputPlatform Key.any,
    properties.valueOr Key.templateOutputFormat Key.any⟩
  config := properties.filter fun key _ => !isDescription key

/-- Whether the template reads from `source` and writes to `destination`. -/
def supportsHop (template : Template) (source destination : Dataset) : Bool :=
  template.input.isCompatible source && template.output.isCompatible destination

/-- The format of data that arrived in `format`, after a job of the template. -/
def outputFormat (template : Template) (format : String) : String :=
  if template.output.format = Key.any then format else template.output.format

end Template

end HopRouting
