import LayeredConfig.CommandLine.Invocation
import LayeredConfig.Settings.File
import LayeredConfig.Yaml.Printer

/-!
# The command line

A run of the program is a function of its arguments, the variables of the process and the files.
It ends with a code: zero when all went well, one after a failure, two when the arguments ask for
no command.

## Main definitions

* `CommandLine.World`, `CommandLine.Answer`.
* `CommandLine.run`: the answer of the program.
* `CommandLine.wanted`: the paths that a run looks at.
-/

namespace LayeredConfig.CommandLine

/-- What a run depends on. -/
structure World where
  arguments : List String
  /-- The variables of the process, each once. -/
  vars : List (String × String)
  files : FileTree
  /-- The home directory where no variable names one. -/
  accountHome : Option String := none

/-- What a run shows. -/
structure Answer where
  code : Nat
  out : String := ""
  err : String := ""
  deriving DecidableEq, Repr

/-! ### Failures -/

/-- A failure that ends a run: what was to be done, and the causes from the outside in. -/
structure Trouble where
  context : String
  causes : List String := []
  deriving DecidableEq, Repr

/-- A failure of the library while something was to be done. -/
def trouble (context : String) (failure : Failure) : Trouble := ⟨context, failure.wordings⟩

/-- The same result, or the trouble of its failure. -/
def during {α : Type} (context : String) : Except Failure α → Except Trouble α
  | .ok value => .ok value
  | .error failure => .error (trouble context failure)

/-- A text behind a label. Further lines of the text begin below its first one. -/
def labelled (label text : String) : String :=
  let below := "\n" ++ String.ofList (List.replicate label.length ' ')
  label ++ below.intercalate ((text.toList.splitOn '\n').map String.ofList)

/-- The number of a cause with the space around it. -/
def causeLabel (index : Nat) : String :=
  let number := toString index
  String.ofList (List.replicate (5 - number.length) ' ') ++ number ++ ": "

/-- The causes, each in a line of its own; several of them have numbers. -/
def causeLines (causes : List String) : List String :=
  match causes with
  | [cause] => [labelled "    " cause]
  | causes => causes.mapIdx fun index cause => labelled (causeLabel index) cause

/-- The text of a failure. -/
def Trouble.text (found : Trouble) : String :=
  let causes :=
    if found.causes.isEmpty then ""
    else "\n\nCaused by:\n" ++ "\n".intercalate (causeLines found.causes)
  "Error: " ++ found.context ++ causes ++ "\n"

/-! ### Settings and environment -/

namespace World

/-- The working directory. -/
def directory (world : World) : String := "/" ++ "/".intercalate world.files.workingDirectory

/-- The home directory. -/
def home? (world : World) : Option String :=
  Settings.homeDirectory? world.accountHome world.vars

/-- The path of the settings. -/
def settingsPath? (world : World) (invocation : Invocation) : Option String :=
  invocation.settings.or (Settings.defaultPath? world.accountHome world.vars)

/-- The settings of a run. -/
def settings (world : World) (invocation : Invocation) : Except Trouble Settings :=
  match world.settingsPath? invocation with
  | none => .ok {}
  | some path =>
    during ("failed to load settings from " ++ Text.quotedPath path)
      (Settings.load world.files path)

end World

/-- Values joined by commas, if there are any. -/
def joined? (values : List String) : Option String :=
  if values.isEmpty then none else some (",".intercalate values)

/-- The source of what the arguments say. Options of their own come after the values. -/
def argumentSource (options : LoadOptions) : Source :=
  let own := [(Key.locations, options.location),
    (Key.additionalLocations, options.additionalLocation), (Key.names, options.name),
    (Key.active, joined? options.profiles), (Key.includes, joined? options.includes)]
  .ofPairs "commandLineArgs"
    (options.values ++ own.filterMap fun (key, value) => value.map (key, ·))

/-- The environment before a load. -/
def World.environment (world : World) (invocation : Invocation) (settings : Settings)
    (options : LoadOptions) : Except Trouble Environment :=
  let system := if options.withoutSystem then [] else [Source.ofVariables world.vars]
  let env : Environment := { chain := .ofSources (argumentSource options :: system) }
  let origin := (world.settingsPath? invocation).getD "settings"
  during "failed to apply settings" (settings.apply env origin)

/-! ### Loads -/

/-- The base directory of a load. -/
def World.base (world : World) (options : LoadOptions) : String :=
  options.baseDirectory.getD world.directory

/-- The roots of the class path of a load. -/
def World.roots (world : World) (settings : Settings) (options : LoadOptions) : List String :=
  let classpath := if options.classpath.isEmpty then settings.classpath else options.classpath
  { settings with classpath }.roots (world.base options)

/-- A load into the environment of a run. -/
def World.outcome (world : World) (settings : Settings) (options : LoadOptions)
    (env : Environment) : Outcome :=
  let store := Store.fileTree world.files (world.base options) (world.roots settings options)
    world.home?
  settings.loader.load store env

/-- The environment and the report after a load. -/
def World.load (world : World) (invocation : Invocation) (settings : Settings)
    (options : LoadOptions) : Except Trouble (Environment × Report) := do
  let env ← world.environment invocation settings options
  let outcome := world.outcome settings options env
  let report ← during "failed to load configuration" outcome.result
  return (outcome.env.reorder, report)

/-! ### What is shown -/

/-- A property with its origin. -/
def propertyLine (entry : String × Property) : String :=
  let origin := (entry.2.origin.map fun origin => "    # " ++ origin.text).getD ""
  "  " ++ entry.1 ++ " = " ++ entry.2.value ++ origin

/-- A source as text; of the variables of the process, only the number is shown. -/
def sourceLines (source : Source) : List String :=
  let content :=
    match source.kind with
    | .systemEnvironment => ["  (" ++ toString source.size ++ " variables)"]
    | .plain => source.entries.map propertyLine
  "" :: ("[" ++ source.name ++ "]") :: content

/-- The result of a load as text. -/
def textLines (env : Environment) (report : Report) : List String :=
  ("active profiles: " ++ ", ".intercalate report.active) ::
    env.chain.sources.flatMap sourceLines

/-- A list of texts. -/
def textList (texts : List String) : Tree := .list (texts.map .text)

/-- A source as a structured value. -/
def sourceTree (source : Source) : Tree :=
  .table [("name", .text source.name),
    ("properties", .table (source.entries.map fun entry => (entry.1, .text entry.2.value)))]

/-- The result of a load as the fields of a structured value, without the variables of the
process. -/
def resultFields (env : Environment) (report : Report) : List (String × Tree) :=
  let sources := env.chain.sources.filter fun source => source.kind != .systemEnvironment
  [("activeProfiles", textList report.active), ("locations", textList report.locations),
    ("propertySources", .list (sources.map sourceTree))]

/-- Lines, each with its end. -/
def ofLines (lines : List String) : String := String.join (lines.map (· ++ "\n"))

/-- The result of a load in a format. -/
def shown (env : Environment) (report : Report) : OutputFormat → String
  | .text => ofLines (textLines env report)
  | .json => ofLines [Json.pretty "" (.table (resultFields env report))]
  | .yaml => ofLines [Yaml.document (resultFields env report)]

/-- A text or null. -/
def textOrNull (text : Option String) : Tree := text.elim .null .text

/-- The settings as the fields of a structured value. -/
def settingsFields (settings : Settings) : List (String × Tree) :=
  [(Settings.Field.searchLocations, textOrNull settings.searchLocations),
    (Settings.Field.searchNames, textOrNull settings.searchNames),
    (Settings.Field.classpath, textList settings.classpath),
    (Settings.Field.defaultProfiles, textList settings.defaultProfiles),
    (Settings.Field.defaultProperties, .table settings.defaultProperties)]

/-- Where a load searches, as text. -/
def searchLines (locations names : List String) : List String :=
  ("locations (highest precedence first):" :: locations.map ("  " ++ ·)) ++
    ["names: " ++ ", ".intercalate names]

/-! ### Commands -/

/-- What a command shows. -/
def execute (world : World) (invocation : Invocation) (settings : Settings) :
    Except Trouble String :=
  match invocation.command with
  | .resolve options format => do
    let (env, report) ← world.load invocation settings options
    return shown env report format
  | .get key options => do
    let (env, _) ← world.load invocation settings options
    match ← during ("failed to resolve '" ++ key ++ "'") (env.get? key) with
    | some value => return ofLines [value]
    | none => throw { context := "property '" ++ key ++ "' is not defined" }
  | .locations options => do
    let env ← world.environment invocation settings options
    let (locations, names) ←
      during "failed to resolve search locations" (settings.loader.searched env)
    return ofLines (searchLines locations names)
  | .showSettings => return ofLines [Yaml.document (settingsFields settings)]
  | .showSettingsPath =>
    let path := (world.settingsPath? invocation).map Text.quotedPath
    return ofLines ["settings: " ++ path.getD "(no platform config directory)"]

/-- The version of the program. -/
def version : String := "0.1.0"

/-- The answer of the program. -/
def run (world : World) : Answer :=
  match Invocation.read world.arguments with
  | .error .rejected => { code := 2, err := "error: invalid arguments\n" }
  | .error (.version title) => { code := 0, out := ofLines [title ++ " " ++ version] }
  | .ok invocation =>
    match world.settings invocation >>= execute world invocation with
    | .ok out => { code := 0, out }
    | .error found => { code := 1, err := found.text }

/-! ### Files -/

/-- The paths that a location may lead to. -/
def World.paths (world : World) (settings : Settings) (options : LoadOptions)
    (location : String) : List String :=
  (world.roots settings options).filterMap fun root =>
    Store.path? {} (world.base options) [root] world.home? location

/-- The paths that a load looks at. -/
def World.loadPaths (world : World) (invocation : Invocation) (options : LoadOptions) :
    List String :=
  let outcome : Except Trouble (Settings × Outcome) := do
    let settings ← world.settings invocation
    let env ← world.environment invocation settings options
    return (settings, world.outcome settings options env)
  match outcome with
  | .error _ => []
  | .ok (settings, outcome) =>
    (outcome.events.toList.filterMap Event.location?).flatMap (world.paths settings options)

/-- The paths that a run looks at, as far as the files that it knows lead. -/
def wanted (world : World) : List String :=
  match Invocation.read world.arguments with
  | .error _ => []
  | .ok invocation =>
    (world.settingsPath? invocation).toList ++
      invocation.command.loadOptions?.elim [] (world.loadPaths invocation)

end LayeredConfig.CommandLine
