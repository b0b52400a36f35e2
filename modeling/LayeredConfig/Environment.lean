import LayeredConfig.Chain
import LayeredConfig.Placeholder
import LayeredConfig.Profile
import LayeredConfig.Profile.Expression

/-!
# The environment

An environment is a chain of sources together with the profiles that were set as active and
as default. Where none were set, reserved keys of the chain name them.

## Main definitions

* `Environment`, `Environment.get?`, `Environment.resolve`.
* `Environment.active`, `Environment.addActive`, `Environment.setActive`.
* `Environment.defaults`, `Environment.setDefaults`.
* `Environment.accepts`: the profile state matches one of several expressions.
-/

namespace LayeredConfig

namespace Key

/-- The key that names the active profiles. -/
def active : String := "profiles.active"

/-- The key that names the profiles to include. -/
def includes : String := "profiles.include"

/-- The key that names the profiles to fall back to. -/
def defaults : String := "profiles.default"

/-- The key under which a document says for which profiles it is meant. -/
def declared : String := "profiles"

end Key

/-- The name of the source of lowest precedence. -/
def defaultPropertiesName : String := "defaultProperties"

/-- The name of the profile to fall back to when none is set. -/
def reservedDefaultProfile : String := "default"

/-- A chain of sources with the profiles that were set. -/
structure Environment where
  chain : Chain := {}
  activeNames : List String := []
  defaultNames : List String := [reservedDefaultProfile]
  deriving DecidableEq, Repr

namespace Environment

/-- A text with its references replaced by the values of the chain. -/
def resolve (env : Environment) (text : String) : Except Failure String :=
  Placeholder.resolve (fun key => (env.chain.property? key).map Property.value) text

/-- The chain has a value for the key. -/
def contains (env : Environment) (key : String) : Bool :=
  (env.chain.property? key).isSome

/-- The value of a key with its references replaced. -/
def get? (env : Environment) (key : String) : Except Failure (Option String) :=
  match env.chain.property? key with
  | some property => do
    let value ← env.resolve property.value
    return some value
  | none => .ok none

/-- Puts a source under the reserved name at the end of the chain. -/
def setDefaultProperties (env : Environment) (source : Source) : Environment :=
  let named := if source.name = defaultPropertiesName then source
    else source.renamed defaultPropertiesName
  { env with chain := env.chain.addLast named }

/-- Moves the source of the reserved name to the end of the chain. -/
def reorder (env : Environment) : Environment :=
  match env.chain.get? defaultPropertiesName with
  | some defaults =>
    { env with chain := (env.chain.erase defaultPropertiesName).addLast defaults }
  | none => env

/-- The profiles that were set as active, or those that the reserved key names. -/
def active (env : Environment) : Except Failure (List String) :=
  if env.activeNames.isEmpty then do
    let value ← env.get? Key.active
    return (value.map Text.splitList).getD []
  else .ok env.activeNames

/-- Adds a profile to the active ones, which are taken from the chain if none were set. -/
def addActive (env : Environment) (name : String) : Except Failure Environment := do
  Profile.validate name
  let names ← env.active
  return { env with activeNames := if names.contains name then names else names ++ [name] }

/-- Sets the active profiles, each once. -/
def setActive (env : Environment) (names : List String) : Except Failure Environment := do
  names.forM Profile.validate
  return { env with activeNames := names.eraseDups }

/-- The profiles to fall back to: those that were set, or those that the reserved key names
while only the reserved profile is set. -/
def defaults (env : Environment) : Except Failure (List String) :=
  if env.defaultNames = [reservedDefaultProfile] then do
    let value ← env.get? Key.defaults
    return (value.map Text.splitList).getD env.defaultNames
  else .ok env.defaultNames

/-- Sets the profiles to fall back to. -/
def setDefaults (env : Environment) (names : List String) : Except Failure Environment := do
  names.forM Profile.validate
  return { env with defaultNames := names }

/-- Some expression of the list holds when exactly the names with `isActive` are active. The
expressions are read one after the other, up to the first that holds. -/
def someHolds (isActive : String → Bool) : List String → Except Failure Bool
  | [] => .ok false
  | text :: texts => do
    let expression ← Expression.parse text
    if expression.holds isActive then return true
    someHolds isActive texts

/-- The names that count as active: the active profiles, or the ones to fall back to where
there are none. -/
def effective (env : Environment) : Except Failure (List String) := do
  let active ← env.active
  if active.isEmpty then env.defaults else return active

/-- The profile state matches one of the expressions. -/
def accepts (env : Environment) (expressions : List String) : Except Failure Bool := do
  let names ← env.effective
  someHolds names.contains expressions

/-- The profiles that a key of the chain names, each once. Indexed entries count only where
some source has the plain key. -/
def profilesNamedBy (env : Environment) (key : String) : Except Failure (List Profile) :=
  if env.contains key then do
    let names ← Source.firstList? env.chain.sources env.resolve key
    return Profile.setOfNames (names.getD [])
  else .ok []

end Environment

end LayeredConfig
