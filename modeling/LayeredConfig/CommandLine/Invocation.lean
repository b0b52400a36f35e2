import LayeredConfig.CommandLine.Option

/-!
# The commands of the command line

## Main definitions

* `Command`, `LoadOptions`, `Invocation`.
* `Invocation.read`: the command that arguments ask for.
-/

namespace LayeredConfig

/-- What the options of a load say. -/
structure LoadOptions where
  /-- Replaces the search locations. -/
  location : Option String := none
  /-- Adds search locations. -/
  additionalLocation : Option String := none
  /-- Replaces the names of the files. -/
  name : Option String := none
  profiles : List String := []
  includes : List String := []
  /-- Replaces the roots of the class path. -/
  classpath : List String := []
  values : List (String × String) := []
  baseDirectory : Option String := none
  /-- The variables of the process are no properties. -/
  withoutSystem : Bool := false
  deriving DecidableEq, Repr

/-- How the result of a load is shown. -/
inductive OutputFormat
  | text
  | json
  | yaml
  deriving DecidableEq, Repr

/-- What the command line is asked for. -/
inductive Command
  /-- Shows all sources after a load. -/
  | resolve (options : LoadOptions) (format : OutputFormat)
  /-- Shows the value of a key after a load. -/
  | get (key : String) (options : LoadOptions)
  /-- Shows where a load searches. -/
  | locations (options : LoadOptions)
  | showSettings
  | showSettingsPath
  deriving DecidableEq, Repr

/-- The options of the load of a command, if it has one. -/
def Command.loadOptions? : Command → Option LoadOptions
  | .resolve options _ | .get _ options => some options
  | .locations _ | .showSettings | .showSettingsPath => none

/-- A command with the path of the settings, as far as that is given. -/
structure Invocation where
  settings : Option String
  command : Command
  deriving DecidableEq, Repr

namespace CommandLine

/-! ### What the commands understand -/

/-- An option with any value but an empty one. -/
def pathOption (name : String) (arity : Arity) : OptionRule :=
  { name, arity, allows := fun value => !value.isEmpty }

/-- The option that every command understands. -/
def settingsOption : OptionRule := pathOption "settings" .once

/-- A key with its value, from a text with an equals sign between them. The key is not blank. -/
def keyValue? (text : String) : Option (String × String) := do
  let (key, value) ← Text.cutFirst '=' text.toList
  let key := Text.trim key
  if key.isEmpty then none else some (String.ofList key, String.ofList (Text.trim value))

/-- The options of a load. -/
def loadOptions : List OptionRule :=
  [{ name := "location", arity := .once }, { name := "additional-location", arity := .once },
    { name := "name", arity := .once }, { name := "profile", arity := .many },
    { name := "include", arity := .many }, pathOption "classpath" .many,
    { name := "set", arity := .many, allows := fun value => (keyValue? value).isSome },
    pathOption "base-dir" .once, { name := "no-system-env", arity := .flag }]

/-- The format with a name. -/
def format? (name : String) : Option OutputFormat :=
  if name = "text" then some .text
  else if name = "json" then some .json
  else if name = "yaml" then some .yaml
  else none

/-- The option for the format. -/
def formatOption : OptionRule :=
  { name := "format", arity := .once, allows := fun value => (format? value).isSome }

/-- The name of the program. -/
def programName : String := "layercfg"

/-- What the program understands before a command. -/
def programRules : Rules where
  title := programName
  options := [settingsOption]
  commands := ["resolve", "get", "locations", "settings"]

/-- What a command understands that comes after others. -/
def commandRules (names : List String) (options : List OptionRule) : Rules where
  title := "-".intercalate (programName :: names)
  options := settingsOption :: options

/-! ### From arguments to commands -/

/-- The options of a load as they are given. -/
def loadOptionsOf (given : Given) : LoadOptions where
  location := given.value? "location"
  additionalLocation := given.value? "additional-location"
  name := given.value? "name"
  profiles := given.all "profile"
  includes := given.all "include"
  classpath := given.all "classpath"
  values := (given.all "set").filterMap keyValue?
  baseDirectory := given.value? "base-dir"
  withoutSystem := given.has "no-system-env"

/-- Reads the arguments after `settings`. -/
def readSettings (arguments : List String) : Except Stop (Option String × Command) := do
  let rules := { commandRules ["settings"] [] with commands := ["show", "path"] }
  let outer ← rules.read arguments
  match outer.command with
  | none => throw .rejected
  | some (name, arguments) =>
    let inner ← (commandRules ["settings", name] []).read arguments
    let path := (inner.value? "settings").or (outer.value? "settings")
    return (path, if name = "show" then .showSettings else .showSettingsPath)

/-- Reads the arguments after the name of a command. -/
def readCommand (name : String) (arguments : List String) :
    Except Stop (Option String × Command) := do
  if name = "settings" then readSettings arguments
  else if name = "resolve" then
    let given ← (commandRules [name] (formatOption :: loadOptions)).read arguments
    let format := ((given.value? "format").bind format?).getD .text
    return (given.value? "settings", .resolve (loadOptionsOf given) format)
  else if name = "get" then
    let given ← { commandRules [name] loadOptions with operands := 1 }.read arguments
    match given.operands with
    | [key] => return (given.value? "settings", .get key (loadOptionsOf given))
    | _ => throw .rejected
  else
    let given ← (commandRules [name] loadOptions).read arguments
    return (given.value? "settings", .locations (loadOptionsOf given))

end CommandLine

namespace Invocation

open CommandLine in
/-- The command that arguments ask for. The path of the settings may be given before and after the
name of the command; the later one counts. -/
def read (arguments : List String) : Except Stop Invocation := do
  let outer ← programRules.read arguments
  match outer.command with
  | none => throw .rejected
  | some (name, arguments) =>
    let (path, command) ← readCommand name arguments
    return { settings := path.or (outer.value? "settings"), command }

end Invocation

end LayeredConfig
