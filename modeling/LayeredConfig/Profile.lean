import LayeredConfig.Failure
import LayeredConfig.Text

/-!
# Profiles

A profile is a named variant of the configuration. The unscoped profile stands for no profile
at all. A name is queued as a fallback when nothing else is active; a fallback and a requested
profile of one name are the same profile, which `Profile.same` decides.

## Main definitions

* `Profile`, `Profile.name?`, `Profile.same`.
* `Profile.setOfNames`: the requested profiles of a list of names, each once.
* `Profile.validate`: the names that may be activated.
-/

namespace LayeredConfig

/-- A profile to load documents for. -/
inductive Profile
  /-- No profile: selects the documents that declare none. -/
  | unscoped
  /-- A profile that was asked for. -/
  | requested (name : String)
  /-- A profile queued because nothing was asked for. -/
  | fallback (name : String)
  deriving DecidableEq, Repr

namespace Profile

/-- The name, if the profile has one. -/
def name? : Profile → Option String
  | unscoped => none
  | requested name => some name
  | fallback name => some name

/-- The profile was queued because nothing was asked for. -/
def isFallback : Profile → Bool
  | fallback _ => true
  | _ => false

/-- The profile is no profile. -/
def isUnscoped : Profile → Bool
  | unscoped => true
  | _ => false

/-- The profile was asked for by name. -/
def isRequested : Profile → Bool
  | requested _ => true
  | _ => false

/-- Two profiles are the same when their names are. -/
def same (p q : Profile) : Bool :=
  p.name? = q.name?

/-- The profile is the same as one of the list. -/
def isIn (p : Profile) (profiles : List Profile) : Bool :=
  profiles.any p.same

/-- The text that names the profile. -/
def text (p : Profile) : String :=
  p.name?.getD "(no profile)"

/-- The list without the profiles that are the same as an earlier one. -/
def distinct (profiles : List Profile) : List Profile :=
  profiles.foldl (fun kept p => if p.isIn kept then kept else kept ++ [p]) []

/-- The requested profiles of the given names, each once, in order of first mention. -/
def setOfNames (names : List String) : List Profile :=
  names.eraseDups.map requested

/-- The names of the profiles that have one. -/
def names (profiles : List Profile) : List String :=
  profiles.filterMap name?

/-- Refuses the names that cannot be activated. -/
def validate (name : String) : Except Failure Unit :=
  if Text.isAllBlank name then .error (.invalidProfile name .blankName)
  else if name.toList.head? = some '!' then .error (.invalidProfile name .negatedName)
  else .ok ()

@[simp] theorem same_iff {p q : Profile} : p.same q = true ↔ p.name? = q.name? := by
  simp [same]

end Profile

end LayeredConfig
