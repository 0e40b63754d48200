import Std.Data.ExtTreeMap

/-!
# Property sets

A property set gives values to finitely many keys, all of them strings.  Nested structure is
spelled with dots: the entries below a scope `s` are those whose keys begin with `s` and a dot,
and `block` cuts that beginning off.

Sets are equal when they give the same values, and their entries are listed by increasing key.
-/

namespace HopRouting

/-- A finite map from keys to values. -/
abbrev PropertySet := Std.ExtTreeMap String String

namespace PropertySet

/-- The value of a key, or `fallback` if the set gives none. -/
def valueOr (properties : PropertySet) (key fallback : String) : String :=
  properties[key]?.getD fallback

/-- The entries of both sets, where those of `overriding` win. -/
def merge (properties overriding : PropertySet) : PropertySet :=
  properties ∪ overriding

/-- What follows the scope and a dot in a key that begins with them. -/
def keyBelow? (scope key : String) : Option String :=
  ((scope.toList ++ ['.']).isPrefixOf? key.toList).map String.ofList

/-- The entries below a scope, under what their keys say after it. -/
def block (properties : PropertySet) (scope : String) : PropertySet :=
  .ofList <| properties.toList.filterMap fun (key, value) =>
    (keyBelow? scope key).map (·, value)

end PropertySet

end HopRouting
