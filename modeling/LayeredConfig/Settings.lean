import LayeredConfig.Format.BuiltIn
import LayeredConfig.Load
import LayeredConfig.Tree

/-!
# Settings

The settings say where a load searches and what it falls back to, as opposed to the
configuration that it loads.

## Main definitions

* `Settings`, `Settings.loader`, `Settings.roots`, `Settings.apply`.
-/

namespace LayeredConfig

/-- Where a load searches and what it falls back to. -/
structure Settings where
  /-- Replaces the built-in search locations. -/
  searchLocations : Option String := none
  /-- Replaces the built-in name. -/
  searchNames : Option String := none
  /-- The roots of the class path. -/
  classpath : List String := []
  defaultProfiles : List String := []
  /-- The default properties, a table of structured values. -/
  defaultProperties : List (String × Tree) := []
  deriving Repr, BEq

namespace Settings

/-! ### Names of settings -/

namespace Field

def searchLocations : String := "search_locations"
def searchNames : String := "search_names"
def classpath : String := "classpath"
def defaultProfiles : String := "default_profiles"
def defaultProperties : String := "default_properties"

/-- The names under which settings stand in a file. -/
def all : List String :=
  [searchLocations, searchNames, classpath, defaultProfiles, defaultProperties]

end Field

/-! ### What settings do -/

/-- The search path of the settings. -/
def search (settings : Settings) : SearchPath where
  locations := settings.searchLocations
  names := settings.searchNames

/-- The loader of the settings, with the built-in formats. -/
def loader (settings : Settings) : Loader where
  search := settings.search
  registry := .builtIn

/-- The roots of the class path as seen from a base directory, which is the only root where
none is set. -/
def roots (settings : Settings) (base : String) : List String :=
  if settings.classpath.isEmpty then [base] else settings.classpath.map (Path.join base)

/-- The source of the default properties, all of which come from `origin`. -/
def defaultSource (settings : Settings) (origin : String) : Source where
  name := defaultPropertiesName
  entries := Pairs.ofList <| (Tree.table settings.defaultProperties).entries.map fun leaf =>
    (leaf.1, { value := leaf.2, origin := some { resource := origin, document := some 0 } })

/-- The environment with the default profiles and the default properties of the settings, as
far as there are any. -/
def apply (settings : Settings) (env : Environment) (origin : String) :
    Except Failure Environment := do
  let env ←
    if settings.defaultProfiles.isEmpty then pure env
    else env.setDefaults settings.defaultProfiles
  if settings.defaultProperties.isEmpty then return env
  return env.setDefaultProperties (settings.defaultSource origin)

end Settings

end LayeredConfig
