import LayeredConfig.Settings.Toml
import LayeredConfig.Settings.Yaml

/-!
# The settings file

A file whose name ends in `.toml` holds TOML, and any other YAML. Where there is no file, nothing
is set.

## Main definitions

* `Settings.load`: the settings at a path.
* `Settings.defaultPath?`: where the settings stand if nothing else is said.
-/

namespace LayeredConfig.Settings

/-- The part of the file name of a path after its last dot. A dot that begins the name does not
count. -/
def extension? (path : String) : Option String := do
  let name ← Path.fileName? path
  let (before, extension) ← Text.cutLast '.' name.toList
  if before.isEmpty then none else some (String.ofList extension)

/-- The settings of the text of the file at a path. -/
def ofText? (path text : String) : Option Settings :=
  if extension? path = some "toml" then ofToml? text
  else if Text.isAllBlank text then some {}
  else ofYaml? text

/-- The settings at a path. -/
def load (tree : FileTree) (path : String) : Except Failure Settings :=
  if tree.contains path then
    let found := (tree.readText path).toOption.bind (ofText? path)
    found.elim (.error (.invalidSettings path)) .ok
  else .ok {}

/-! ### The default path -/

/-- The value of a variable. -/
def valueOf? (name : String) (vars : List (String × String)) : Option String :=
  Pairs.get? name (Pairs.ofList vars)

/-- The home directory: what the variable `HOME` says, or else that of the account. -/
def homeDirectory? (accountHome : Option String) (vars : List (String × String)) :
    Option String :=
  match valueOf? "HOME" vars with
  | some home => if home.isEmpty then accountHome else some home
  | none => accountHome

/-- The directory of a user's configuration: what `XDG_CONFIG_HOME` says if that is absolute, or
else `.config` in the home directory. -/
def configDirectory (home : String) (vars : List (String × String)) : String :=
  let named := (valueOf? "XDG_CONFIG_HOME" vars).filter Path.isAbsolute
  named.getD (Path.join home ".config")

/-- The path of the settings of a user, who has a home directory. -/
def defaultPath? (accountHome : Option String) (vars : List (String × String)) :
    Option String :=
  (homeDirectory? accountHome vars).map fun home =>
    Path.join (Path.join (configDirectory home vars) "layercfg") "settings.yaml"

end LayeredConfig.Settings
