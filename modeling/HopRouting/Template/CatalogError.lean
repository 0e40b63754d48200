/-!
# Failed template lookups

A catalog may not know a template, not understand its URI, or find that what is stored under it
is no template.
-/

namespace HopRouting

/-- Why a catalog gives no template. -/
inductive CatalogError where
  | notFound (uri : String)
  | unsupportedUri (uri : String)
  | invalid (uri reason : String)
  deriving DecidableEq

namespace CatalogError

/-- What is told about the error. -/
def message : CatalogError → String
  | notFound uri => s!"Template '{uri}' was not found in the catalog"
  | unsupportedUri uri => s!"Template URI '{uri}' is not supported by this catalog"
  | invalid uri reason => s!"Template '{uri}' could not be loaded: {reason}"

end CatalogError

end HopRouting
