import HopRouting.Json.Reader
import HopRouting.Key
import HopRouting.PropertySet.Basic
import HopRouting.Settings.Basic

/-!
# Where settings come from

Settings are read from a JSON text or from a property set; what is not said takes its default, and
the result is checked.

**JSON.** An object with a member for each setting, or an array of the settings in their order.
Unknown members are ignored; a known member that is repeated, or that has a value of the wrong
kind, makes the text unreadable.

**Properties.** Lists are comma separated.  An interval that is no number is told before anything
that the check finds.
-/

namespace HopRouting.Settings

/-- The names of the settings in a JSON text, in order. -/
def memberNames : List String :=
  ["repository_uri", "repository_dir", "branch", "polling_interval_secs", "flowgraph_dir",
    "properties_extensions", "conf_extensions"]

/-- The named values of an object, or of an array that lists them in order. -/
def members? : Json → Option (List (String × Json))
  | .object members => members.mapM fun (name, value) => name.map (·, value)
  | .array elements =>
    if elements.length ≤ memberNames.length then some (memberNames.zip elements) else none
  | _ => none

/-- A setting read from its member, or its default; `none` if the member is repeated or is not of
the right kind. -/
def member? {α : Type} (members : List (String × Json)) (name : String) (fallback : α)
    (read : Json → Option α) : Option α :=
  match members.filter (·.1 = name) with
  | [] => some fallback
  | [(_, value)] => read value
  | _ => none

/-- A text. -/
def textValue? : Json → Option String
  | .text content => content
  | _ => none

/-- A text, or `null` for none. -/
def optionalText? : Json → Option (Option String)
  | .null => some none
  | value => (textValue? value).map some

/-- A machine word. -/
def wordValue? : Json → Option Nat
  | .natural n => if n < Text.wordBound then some n else none
  | _ => none

/-- A list of texts. -/
def textList? : Json → Option (List String)
  | .array elements => elements.mapM textValue?
  | _ => none

/-- The settings that a JSON value denotes. -/
def ofValue? (value : Json) : Option Settings := do
  let members ← members? value
  let defaults : Settings := {}
  pure
    { repositoryUri := ← member? members "repository_uri" defaults.repositoryUri optionalText?
      repositoryDir := ← member? members "repository_dir" defaults.repositoryDir fun v =>
        (textValue? v).map .ofText
      branch := ← member? members "branch" defaults.branch textValue?
      pollingSeconds := ← member? members "polling_interval_secs" defaults.pollingSeconds wordValue?
      graphDir := ← member? members "flowgraph_dir" defaults.graphDir textValue?
      propertyExtensions :=
        ← member? members "properties_extensions" defaults.propertyExtensions textList?
      overlayExtensions :=
        ← member? members "conf_extensions" defaults.overlayExtensions textList? }

/-- The settings that a JSON text denotes, if they pass the check. -/
def ofJson (text : String) : Except SettingsError Settings :=
  match (Json.parse? text).bind ofValue? with
  | some settings => settings.checked
  | none => .error .unreadable

/-- The interval in seconds that a property gives. -/
def interval (fallback : Nat) (properties : PropertySet) : Except SettingsError Nat :=
  match properties[Key.monitorPollingInterval]? with
  | none => .ok fallback
  | some text =>
    match Text.word? text with
    | some seconds => .ok seconds
    | none =>
      .error (.invalid Key.monitorPollingInterval text "expected a whole number of seconds")

/-- The list that a property gives. -/
def listOr (properties : PropertySet) (key : String) (fallback : List String) : List String :=
  (properties[key]?.map Text.commaItems).getD fallback

/-- The settings that a property set gives, if they pass the check. -/
def ofProperties (properties : PropertySet) : Except SettingsError Settings := do
  let defaults : Settings := {}
  let pollingSeconds ← interval defaults.pollingSeconds properties
  let settings : Settings :=
    { repositoryUri := properties[Key.monitorRepositoryUri]?
      repositoryDir :=
        (properties[Key.monitorRepositoryDir]?.map Path.ofText).getD defaults.repositoryDir
      branch := properties.valueOr Key.monitorBranch defaults.branch
      pollingSeconds
      graphDir := properties.valueOr Key.monitorGraphDir defaults.graphDir
      propertyExtensions :=
        listOr properties Key.monitorPropertyExtensions defaults.propertyExtensions
      overlayExtensions :=
        listOr properties Key.monitorOverlayExtensions defaults.overlayExtensions }
  settings.checked

end HopRouting.Settings
