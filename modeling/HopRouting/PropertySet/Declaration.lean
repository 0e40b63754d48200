import HopRouting.PropertySet.Basic
import HopRouting.Template.CatalogError

/-!
# Declarations

Nodes, edges, executors and flows are declared by property sets.  A declaration is wrong when a
required value is missing or empty, when a value cannot be understood, when it names a class that
nothing builds, or when its template is not to be had.
-/

namespace HopRouting

/-- What is wrong with a declaration. -/
inductive DeclarationError where
  | missing (key : String)
  | unknownClass (className : String)
  | invalid (key value : String)
  | template (cause : CatalogError)
  deriving DecidableEq

namespace DeclarationError

/-- What is told about the error. -/
def message : DeclarationError → String
  | missing key => s!"Required property '{key}' is missing"
  | unknownClass className => s!"No factory is registered for class '{className}'"
  | invalid key value => s!"Property '{key}' has an invalid value '{value}'"
  | template cause => s!"Template check failed: {cause.message}"

end DeclarationError

namespace PropertySet

/-- The value of a key that must have one; the empty string is none. -/
def require (properties : PropertySet) (key : String) : Except DeclarationError String :=
  match properties[key]? with
  | some value => if value = "" then .error (.missing key) else .ok value
  | none => .error (.missing key)

/-- The truth value of a word, in any case. -/
def flagValue? (value : String) : Option Bool :=
  match value.toLower with
  | "true" | "yes" | "1" => some true
  | "false" | "no" | "0" => some false
  | _ => none

/-- The truth value of a key, or `fallback` if the set gives none. -/
def flag (properties : PropertySet) (key : String) (fallback : Bool) :
    Except DeclarationError Bool :=
  match properties[key]? with
  | none => .ok fallback
  | some value =>
    match flagValue? value with
    | some b => .ok b
    | none => .error (.invalid key value)

end PropertySet

end HopRouting
