import HopRouting.Key
import HopRouting.PropertySet.Declaration
import HopRouting.Text.Blank

/-!
# Capabilities

A capability is a pair of platforms between which data can be moved, written `source:destination`.
A declared capability covers a required one when each of its platforms is `*` or the required one.
-/

namespace HopRouting

/-- A source and a destination platform. -/
structure Capability where
  source : String
  destination : String
  deriving DecidableEq

namespace Capability

/-- Whether a declared platform covers a required one. -/
def platformCovers (declared required : String) : Bool :=
  declared = Key.any || declared = required

/-- Whether the declared capability covers the required one. -/
def covers (declared required : Capability) : Bool :=
  platformCovers declared.source required.source &&
    platformCovers declared.destination required.destination

/-- The text of a capability. -/
def render (capability : Capability) : String :=
  capability.source ++ ":" ++ capability.destination

/-- The text of a list of capabilities. -/
def renderList (capabilities : List Capability) : String :=
  ",".intercalate (capabilities.map render)

/-- Reads a capability: two platforms around the first colon, neither of them blank. -/
def parse (text : String) : Except DeclarationError Capability :=
  match Text.splitFirst? [':'] text.toList with
  | none => .error (.invalid Key.executorCapabilities text)
  | some (source, destination) =>
    match Text.trim source, Text.trim destination with
    | [], _ => .error (.invalid Key.executorCapabilities text)
    | _, [] => .error (.invalid Key.executorCapabilities text)
    | source, destination => .ok ⟨String.ofList source, String.ofList destination⟩

/-- Reads a comma separated list of capabilities, in which empty items are skipped. -/
def parseList (text : String) : Except DeclarationError (List Capability) :=
  (Text.commaItems text).mapM parse

end Capability

end HopRouting
