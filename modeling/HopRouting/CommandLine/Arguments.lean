import HopRouting.Key
import HopRouting.Settings.Basic
import HopRouting.Text.Number

/-!
# Arguments of the command line

**Input.** An argument that begins with a dash, and is more than a dash, gives options; any other
argument is an operand.  After the argument `--` there are operands only.

**Options.** A long option is `--name value` or `--name=value`; a short one is `-x value`, `-xvalue`
or `-x=value`.  A value of its own argument does not look like an option.  Letters of short options
that take no value may stand together, and the last letter of such a group may be one that takes a
value.

**Results.** There is exactly one operand, the working copy of the repository, and no option is
given twice.  Paths are not empty, and the interval is a machine word.  Anything else is refused.
-/

namespace HopRouting

/-- What the program is asked to do. -/
structure Arguments where
  /-- The working copy of the topology repository. -/
  repositoryDir : Path
  /-- The directory of templates. -/
  templates : Path
  source : String
  destination : String
  graphDir : String
  repositoryUri : Option String
  group : String
  name : String
  inputFormat : String
  outputFormat : String
  /-- Where the plan is saved. -/
  output : Option Path
  /-- Whether to go on planning once per interval. -/
  watch : Bool
  /-- The interval in seconds. -/
  interval : Nat
  deriving DecidableEq

/-- An option that takes a value. -/
inductive Parameter where
  | templates
  | source
  | destination
  | graphDir
  | repositoryUri
  | group
  | name
  | inputFormat
  | outputFormat
  | output
  | interval
  deriving DecidableEq

namespace Parameter

/-- The parameter of a long option. -/
def ofLong? (name : String) : Option Parameter :=
  match name with
  | "templates" => some templates
  | "source" => some source
  | "destination" => some destination
  | "flowgraph-dir" => some graphDir
  | "repository-uri" => some repositoryUri
  | "group" => some group
  | "name" => some Parameter.name
  | "input-format" => some inputFormat
  | "output-format" => some outputFormat
  | "output" => some output
  | "interval" => some interval
  | _ => none

/-- The parameter of a short option. -/
def ofShort? (letter : Char) : Option Parameter :=
  match letter with
  | 't' => some templates
  | 's' => some source
  | 'd' => some destination
  | 'o' => some output
  | _ => none

end Parameter

/-- Something that the arguments say. -/
inductive Given where
  | operand (text : String)
  | parameter (parameter : Parameter) (value : String)
  | watch
  deriving DecidableEq

namespace Given

/-- What one argument says, and the parameter whose value the next argument has to be. -/
structure Reading where
  given : List Given
  awaiting : Option Parameter
  deriving DecidableEq

/-- Reads what follows the dashes of a long option. -/
def ofLong? (text : List Char) : Option Reading :=
  match Text.splitFirst? ['='] text with
  | some (name, value) =>
    (Parameter.ofLong? (String.ofList name)).map fun p =>
      ⟨[.parameter p (String.ofList value)], none⟩
  | none =>
    if text = "watch".toList then some ⟨[.watch], none⟩
    else (Parameter.ofLong? (String.ofList text)).map fun p => ⟨[], some p⟩

/-- Reads the parameter of a short option with what follows its letter. -/
def ofAttached (wanted : Parameter) (text : List Char) : Reading :=
  match text with
  | [] => ⟨[], some wanted⟩
  | '=' :: value => ⟨[.parameter wanted (String.ofList value)], none⟩
  | value => ⟨[.parameter wanted (String.ofList value)], none⟩

/-- Reads what follows the dash of short options. -/
def ofShort? : List Char → Option Reading
  | [] => some ⟨[], none⟩
  | letter :: rest =>
    if letter = 'w' then (ofShort? rest).map fun r => ⟨.watch :: r.given, r.awaiting⟩
    else (Parameter.ofShort? letter).map (ofAttached · rest)

/-- Whether an argument is taken for options rather than for an operand or a value. -/
def looksLikeOption (argument : String) : Bool :=
  match argument.toList with
  | '-' :: _ :: _ => true
  | _ => false

/-- Reads one argument that is not `--`. -/
def ofArgument? (argument : String) : Option Reading :=
  match argument.toList with
  | '-' :: '-' :: name => ofLong? name
  | '-' :: letter :: rest => ofShort? (letter :: rest)
  | _ => some ⟨[.operand argument], none⟩

/-- What the arguments say, in order. -/
def ofArguments? : List String → Option (List Given)
  | [] => some []
  | argument :: rest =>
    if argument = "--" then some (rest.map .operand)
    else match ofArgument? argument with
      | none => none
      | some ⟨given, none⟩ => (ofArguments? rest).map (given ++ ·)
      | some ⟨given, some wanted⟩ =>
        match rest with
        | [] => none
        | value :: rest =>
          if looksLikeOption value then none
          else (ofArguments? rest).map fun others => given ++ .parameter wanted value :: others

/-- The operand that is given. -/
def operand? : Given → Option String
  | operand text => some text
  | _ => none

/-- The value that is given for a parameter. -/
def valueOf? (wanted : Parameter) : Given → Option String
  | parameter p value => if p = wanted then some value else none
  | _ => none

/-- The value of a parameter, which may be given once. -/
def value? (given : List Given) (wanted : Parameter) : Option (Option String) :=
  match given.filterMap (valueOf? wanted) with
  | [] => some none
  | [value] => some (some value)
  | _ => none

/-- The value of a parameter, or its default. -/
def valueOr? (given : List Given) (wanted : Parameter) (fallback : String) : Option String :=
  (value? given wanted).map (·.getD fallback)

/-- A path that is not empty. -/
def path? (text : String) : Option Path :=
  if text = "" then none else some (.ofText text)

end Given

namespace Arguments

/-- The arguments that what was given amounts to; `none` if they are refused. -/
def ofGiven? (given : List Given) : Option Arguments := do
  let [directory] := given.filterMap Given.operand? | none
  let some templates ← Given.value? given .templates | none
  let some source ← Given.value? given .source | none
  let some destination ← Given.value? given .destination | none
  let output ← Given.value? given .output
  if 1 < given.count .watch then none
  pure
    { repositoryDir := ← Given.path? directory
      templates := ← Given.path? templates
      source
      destination
      graphDir := ← Given.valueOr? given .graphDir ({} : Settings).graphDir
      repositoryUri := ← Given.value? given .repositoryUri
      group := ← Given.valueOr? given .group "cli"
      name := ← Given.valueOr? given .name "adhoc"
      inputFormat := ← Given.valueOr? given .inputFormat Key.any
      outputFormat := ← Given.valueOr? given .outputFormat Key.any
      output := ← output.mapM Given.path?
      watch := given.contains .watch
      interval := ← Text.word? (← Given.valueOr? given .interval "60") }

/-- What the arguments of the command line ask for; `none` if they are refused. -/
def parse? (arguments : List String) : Option Arguments :=
  (Given.ofArguments? arguments).bind ofGiven?

end Arguments

end HopRouting
