import LayeredConfig.Environment
import LayeredConfig.Path

/-!
# The search path

A load probes locations for files of certain names. Both lists are configured from lowest to
highest precedence and probed in the opposite order.

## Main definitions

* `SearchPath`, `SearchPath.probedLocations`, `SearchPath.probedNames`.
* `SearchPath.items`: the items of a configured list in probe order.
-/

namespace LayeredConfig

namespace Key

/-- The key that names the files to search for. -/
def names : String := "config.name"

/-- The key that replaces the search locations. -/
def locations : String := "config.location"

/-- The key that adds search locations. -/
def additionalLocations : String := "config.additional-location"

end Key

/-- The prefix of a location on the class path. -/
def classpathPrefix : String := "classpath:"

/-- The prefix of a location in the file system. -/
def filePrefix : String := "file:"

/-- The prefix of a location on every root of the class path, which is refused. -/
def wildcardPrefix : String := "classpath*:"

/-- What replaces the built-in search locations and names. -/
structure SearchPath where
  locations : Option String := none
  names : Option String := none
  deriving DecidableEq, Repr

namespace SearchPath

/-- The locations that are searched when nothing else is configured. -/
def builtInLocations : String := "classpath:/,classpath:/config/,file:./,file:./config/"

/-- The name that is searched for when nothing else is configured. -/
def builtInNames : String := "application"

/-- The items of a comma-separated list in probe order: the last mentioned first, each once. -/
def items (env : Environment) (value : String) : Except Failure (List String) := do
  let resolved ← env.resolve value
  return (Text.splitList resolved).reverse.eraseDups

/-- A cleaned location says by itself where it leads. -/
def isUrl (location : String) : Bool :=
  classpathPrefix.toList.isPrefixOf location.toList ||
    filePrefix.toList.isPrefixOf location.toList ||
    Text.contains "://".toList location.toList

/-- A configured location as it is probed: cleaned, and in the file system unless it says
otherwise. A location with a dollar sign is left as it is. -/
def asProbed (location : String) : Except Failure String :=
  if location.toList.contains '$' then .ok location
  else
    let cleaned := Path.clean location
    if wildcardPrefix.toList.isPrefixOf cleaned.toList then .error (.wildcardLocation cleaned)
    else if isUrl cleaned then .ok cleaned
    else .ok (filePrefix ++ cleaned)

/-- The locations that a key of the chain names, in probe order. -/
def namedBy (env : Environment) (key : String) : Except Failure (List String) := do
  match ← env.get? key with
  | none => return []
  | some value =>
    let locations ← items env value
    let probed ← locations.mapM asProbed
    return probed.eraseDups

/-- A configured list, which must not be blank, or else the built-in one. -/
def configured (part : String) (builtIn : String) : Option String → Except Failure String
  | none => .ok builtIn
  | some text => if Text.isAllBlank text then .error (.blankSearchPath part) else .ok text

/-- The locations in probe order: the additional ones, then those that replace the configured
ones or else the configured ones. -/
def probedLocations (path : SearchPath) (env : Environment) :
    Except Failure (List String) := do
  let additional ← namedBy env Key.additionalLocations
  let others ←
    if env.contains Key.locations then do
      let named ← namedBy env Key.locations
      if named.isEmpty then throw (.blankSearchPath Key.locations)
      pure named
    else do
      let value ← configured "search locations" builtInLocations path.locations
      items env value
  return (additional ++ others).eraseDups

/-- The names of the files in probe order. -/
def probedNames (path : SearchPath) (env : Environment) : Except Failure (List String) := do
  match ← env.get? Key.names with
  | some value =>
    let names ← items env value
    if names.isEmpty then throw (.blankSearchPath Key.names)
    return names
  | none =>
    let value ← configured "search names" builtInNames path.names
    items env value

end SearchPath

end LayeredConfig
