import HopRouting.PropertySet.Basic
import HopRouting.Text.Blank

/-!
# Property text

**Input.** Lines of text, each trimmed.  Empty lines and lines that begin with `#` or `!` are
skipped.  A line that ends in an odd number of backslashes is continued by the next line, whatever
that holds, and the last backslash is dropped.

**Entries.** A logical line is a key and a value, separated by the first unescaped `=`, `:` or
blank; blanks around an `=` or `:` belong to the separator.  A value may stand in double quotes.
In both parts a backslash escapes the character after it: `\n`, `\t`, `\r` and `\f` are control
characters, any other escaped character stands for itself.

**Results.** `parse` gives the set of all entries, the last one winning for a repeated key, or the
first line that is no entry.
-/

namespace HopRouting.PropertySet

/-- A line of the text with all its continuations. -/
structure LogicalLine where
  /-- Number of its first line in the text, counted from one. -/
  number : Nat
  text : List Char
  deriving DecidableEq

/-- Why a logical line is no entry. -/
inductive LineFault where
  | noSeparator
  | emptyKey
  deriving DecidableEq

namespace LineFault

/-- What is told about the fault. -/
def message : LineFault → String
  | noSeparator => "expected a key/value separator"
  | emptyKey => "empty key"

end LineFault

/-- The first logical line that is no entry. -/
structure Malformed where
  line : Nat
  fault : LineFault
  deriving DecidableEq

/-- A logical line that may go on. -/
structure OpenLine where
  /-- Number of its first line in the text, counted from one. -/
  number : Nat
  /-- What it holds so far, last character first. -/
  backwards : List Char

namespace OpenLine

/-- The line with more text at its end. -/
def append (line : OpenLine) (text : List Char) : OpenLine :=
  { line with backwards := text.reverse ++ line.backwards }

/-- Whether the line ends in an odd number of backslashes. -/
def isContinued (line : OpenLine) : Bool :=
  (line.backwards.takeWhile (· = '\\')).length % 2 = 1

/-- The line without its last character. -/
def dropLast (line : OpenLine) : OpenLine :=
  { line with backwards := line.backwards.tail }

/-- The logical line that does not go on. -/
def close (line : OpenLine) : LogicalLine :=
  ⟨line.number, line.backwards.reverse⟩

end OpenLine

/-- Whether a trimmed line holds no entry. -/
def isSkipped : List Char → Bool
  | [] => true
  | c :: _ => c = '#' || c = '!'

/-- Joins trimmed lines, the first of which has the given number, into logical lines; `pending` is
the line that they continue, if there is one. -/
def joinLines (pending : Option OpenLine) (number : Nat) : List (List Char) → List LogicalLine
  | [] => pending.toList.map OpenLine.close
  | line :: rest =>
    if pending.isNone && isSkipped line then joinLines none (number + 1) rest
    else
      let joined := (pending.getD ⟨number, []⟩).append line
      if joined.isContinued then joinLines (some joined.dropLast) (number + 1) rest
      else joined.close :: joinLines none (number + 1) rest

/-- The logical lines of a text. -/
def logicalLines (text : String) : List LogicalLine :=
  joinLines none 1 ((text.toList.splitOn '\n').map Text.trim)

/-- The character that an escaped character stands for. -/
def escaped (c : Char) : Char :=
  match c with
  | 'n' => '\n'
  | 't' => '\t'
  | 'r' => '\r'
  | 'f' => '\x0c'
  | c => c

/-- Resolves the escapes of a text; a backslash that ends it is dropped. -/
def unescape : List Char → List Char
  | '\\' :: c :: rest => escaped c :: unescape rest
  | ['\\'] => []
  | c :: rest => c :: unescape rest
  | [] => []

/-- Whether an unescaped character separates key and value. -/
def isSeparator (c : Char) : Bool :=
  c = '=' || c = ':' || Text.isBlank c

/-- What precedes the first unescaped separator, and what begins with it; `isEscaped` tells that
the first character is escaped. -/
def splitAtSeparator? (isEscaped : Bool) : List Char → Option (List Char × List Char)
  | [] => none
  | c :: rest =>
    if !isEscaped && isSeparator c then some ([], c :: rest)
    else (splitAtSeparator? (!isEscaped && c = '\\') rest).map fun (before, after) =>
      (c :: before, after)

/-- The text without the `=` or `:` it begins with. -/
def dropAssignment : List Char → List Char
  | '=' :: rest => rest
  | ':' :: rest => rest
  | text => text

/-- The text between the double quotes that it begins and ends with, or else all of it. -/
def unquote (text : List Char) : List Char :=
  match text with
  | '"' :: rest => if rest.getLast? = some '"' then rest.dropLast else text
  | _ => text

/-- The value that stands after a key, separator included. -/
def valueText (after : List Char) : List Char :=
  unescape (unquote (Text.trim (dropAssignment (Text.trimStart after))))

/-- The key and the value of a logical line. -/
def entryOf (text : List Char) : Except LineFault (String × String) :=
  match splitAtSeparator? false text with
  | none => .error .noSeparator
  | some (before, after) =>
    match unescape (Text.trim before) with
    | [] => .error .emptyKey
    | key => .ok (String.ofList key, String.ofList (valueText after))

/-- The entry of a logical line, or where there is none. -/
def LogicalLine.entry (line : LogicalLine) : Except Malformed (String × String) :=
  (entryOf line.text).mapError (⟨line.number, ·⟩)

/-- The property set that a text denotes. -/
def parse (text : String) : Except Malformed PropertySet :=
  ((logicalLines text).mapM LogicalLine.entry).map (.ofList ·)

end HopRouting.PropertySet
