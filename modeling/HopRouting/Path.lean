import HopRouting.Text.Lossy

/-!
# Paths

A path is the byte string a caller wrote.  What it means is its list of components: repeated
slashes and `.` segments carry no meaning, except for a `.` that a relative path begins with.
Two paths agree when their components do, although they may be shown differently.

The module reads off a path the file name with its stem and extension, the parent, and what
remains below a directory; it builds paths by joining.
-/

namespace HopRouting

/-- The name of a directory entry. -/
abbrev Name := List UInt8

/-- A path as written, not necessarily UTF-8. -/
structure Path where
  bytes : List UInt8
  deriving DecidableEq, Inhabited

/-- One meaningful part of a path. -/
inductive Component where
  /-- The root directory an absolute path begins with. -/
  | root
  /-- A `.` that a relative path begins with. -/
  | here
  /-- A `..`, the parent of the directory reached so far. -/
  | up
  /-- The entry of that name. -/
  | name (name : Name)
  deriving DecidableEq, Inhabited

namespace Name

/-- The byte of a slash. -/
def slash : UInt8 := 0x2F

/-- The byte of a dot. -/
def dot : UInt8 := 0x2E

/-- The name with that text. -/
def ofText (text : String) : Name :=
  Text.bytes text

/-- The text of a name, if it is UTF-8. -/
def text? (name : Name) : Option String :=
  Text.text? name

/-- A name taken apart at its last dot into stem and extension.  A dot that the name begins with
starts no extension. -/
def parts (name : Name) : Name × Option Name :=
  match name.reverse.span (· ≠ dot) with
  | (_, []) => (name, none)
  | (_, [_]) => (name, none)
  | (extension, _ :: stem) => (stem.reverse, some extension.reverse)

/-- The name without its extension. -/
def stem (name : Name) : Name :=
  (parts name).1

/-- What follows the last dot of a name that does not begin with it. -/
def extension? (name : Name) : Option Name :=
  (parts name).2

end Name

namespace Component

/-- The component a segment between slashes stands for; empty segments and `.` stand for none. -/
def ofSegment? (segment : List UInt8) : Option Component :=
  if segment = [] ∨ segment = [Name.dot] then none
  else if segment = [Name.dot, Name.dot] then some up
  else some (name segment)

/-- The component as it is written in a path. -/
def bytes : Component → List UInt8
  | root => [Name.slash]
  | here => [Name.dot]
  | up => [Name.dot, Name.dot]
  | name n => n

/-- The name of an ordinary component. -/
def name? : Component → Option Name
  | name n => some n
  | _ => none

end Component

namespace Path

/-- The path with that text. -/
def ofText (text : String) : Path :=
  ⟨Text.bytes text⟩

/-- The path as it is shown to a reader. -/
def display (path : Path) : String :=
  Text.shown path.bytes

/-- An absolute path begins with a slash. -/
def isAbsolute (path : Path) : Bool :=
  path.bytes.head? = some Name.slash

/-- The segments between the slashes of a path. -/
def segments (path : Path) : List (List UInt8) :=
  path.bytes.splitOn Name.slash

/-- The component that the first of several segments stands for. -/
def firstComponent? (first : List UInt8) (rest : List (List UInt8)) : Option Component :=
  if first = [] then (if rest = [] then none else some .root)
  else if first = [Name.dot] then some .here
  else Component.ofSegment? first

/-- The meaning of a path. -/
def components (path : Path) : List Component :=
  match path.segments with
  | [] => []
  | first :: rest => (firstComponent? first rest).toList ++ rest.filterMap Component.ofSegment?

/-- The path made of names, separated by slashes. -/
def ofNames (names : List Name) : Path :=
  ⟨[Name.slash].intercalate names⟩

/-- `path` seen from the directory `base`; an absolute path does not depend on it. -/
def join (base path : Path) : Path :=
  if path.isAbsolute then path
  else if base.bytes = [] ∨ base.bytes.getLast? = some Name.slash then ⟨base.bytes ++ path.bytes⟩
  else ⟨base.bytes ++ Name.slash :: path.bytes⟩

/-- The entry called `name` of the directory `base`. -/
def child (base : Path) (name : Name) : Path :=
  base.join ⟨name⟩

/-- The name of the entry a path leads to; `none` if it ends in no ordinary name. -/
def fileName? (path : Path) : Option Name :=
  path.components.getLast?.bind Component.name?

/-- The extension of the file name. -/
def extension? (path : Path) : Option Name :=
  path.fileName?.bind Name.extension?

/-- The file name without its extension. -/
def stem? (path : Path) : Option Name :=
  path.fileName?.map Name.stem

/-- The extension as text; `none` if there is none or it is not UTF-8. -/
def extensionText? (path : Path) : Option String :=
  path.extension?.bind Name.text?

/-- Whether the path has one of the extensions. -/
def hasExtension (path : Path) (extensions : List String) : Bool :=
  path.extensionText?.any extensions.contains

/-- Segments that carry no meaning after the first one. -/
def isFiller (segment : List UInt8) : Bool :=
  segment = [] ∨ segment = [Name.dot]

/-- The path without its last component, as written up to there; `none` if there is nothing to
take away. -/
def parent? (path : Path) : Option Path :=
  match path.segments with
  | [] => none
  | first :: rest =>
    match rest.reverse.dropWhile isFiller with
    | [] => if first = [] then none else some ⟨[]⟩
    | _ :: before =>
      match (before.dropWhile isFiller).reverse with
      | [] => some (if first = [] then ⟨[Name.slash]⟩ else ⟨first⟩)
      | kept => some (ofNames (first :: kept))

/-- The components of `path` below `base`; `none` if `path` does not begin with `base`. -/
def below? (path base : Path) : Option (List Component) :=
  base.components.isPrefixOf? path.components

end Path

end HopRouting
