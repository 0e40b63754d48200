import HopRouting.PropertySet.File
import HopRouting.Template.Basic
import HopRouting.Template.CatalogError

/-!
# Template catalogs

A catalog answers a template URI with a template or with the reason why there is none.  A shelf
holds templates in memory, by URI.  A directory of template files answers `FS://` URIs: the path
after the scheme, read below the directory, leads to the file, and no part of it may be `..`.
-/

namespace HopRouting

/-- What answers template URIs. -/
abbrev Catalog := String → Except CatalogError Template

/-- Templates held in memory, by URI. -/
abbrev TemplateShelf := Std.ExtTreeMap String Template

namespace TemplateShelf

/-- Puts a template on the shelf, in place of one with the same URI. -/
def add (shelf : TemplateShelf) (template : Template) : TemplateShelf :=
  shelf.insert template.uri template

/-- The catalog of the templates on a shelf. -/
def catalog (shelf : TemplateShelf) : Catalog := fun uri =>
  match shelf[uri]? with
  | some template => .ok template
  | none => .error (.notFound uri)

end TemplateShelf

namespace Catalog

/-- What every URI begins with that a directory of templates answers. -/
def fileScheme : String := "FS://"

/-- The path below the catalog's directory that a URI stands for. -/
def filePath? (uri : String) : Option String :=
  (fileScheme.toList.isPrefixOf? uri.toList).bind fun rest =>
    let relative := rest.dropWhile (· = '/')
    if relative = [] ∨ ['.', '.'] ∈ relative.splitOn '/' then none
    else some (String.ofList relative)

/-- The catalog of the template files below the directory `root`. -/
def ofDirectory (tree : FileTree) (root : Path) : Catalog := fun uri =>
  match filePath? uri with
  | none => .error (.unsupportedUri uri)
  | some relative =>
    let path := root.join (.ofText relative)
    match tree.readText path with
    | .error .notFound => .error (.notFound uri)
    | .error cause => .error (.invalid uri cause.message)
    | .ok text =>
      match PropertySet.ofText path text with
      | .error cause => .error (.invalid uri cause.message)
      | .ok properties => .ok (.ofProperties uri properties)

end Catalog

end HopRouting
