/-!
# Failures

Every way in which reading settings, resolving a search path or loading documents can fail
is a constructor, so that a caller can tell the causes apart. The wording of each stands in
`Failure.message`; a failure that wraps another one leaves the inner wording to its cause.

## Main definitions

* `ProfileFault`, `ReadFault`: the reasons why a profile or a resource is refused.
* `Failure`, `Failure.message`, `Failure.cause?`.
-/

namespace LayeredConfig

/-- Why a profile name or a profile expression is refused. -/
inductive ProfileFault
  /-- A name to be activated has no text. -/
  | blankName
  /-- A name to be activated begins with an exclamation mark. -/
  | negatedName
  /-- An expression has no token. -/
  | emptyExpression
  /-- An operator differs from the one before it at the same level. -/
  | mixedOperators
  /-- An opening parenthesis has no partner. -/
  | unclosedGroup
  /-- A token stands where it cannot. -/
  | malformedExpression
  deriving DecidableEq, Repr

/-- The wording of a refused profile. -/
def ProfileFault.message : ProfileFault → String
  | blankName => "profile name must contain text"
  | negatedName => "profile name must not begin with '!' when activated"
  | emptyExpression => "profile expression must contain text"
  | mixedOperators => "malformed profile expression: mixed '&' and '|'"
  | unclosedGroup => "malformed profile expression: missing ')'"
  | malformedExpression => "malformed profile expression"

/-- Why the content of a resource cannot be had. -/
inductive ReadFault
  /-- The resource has no content at all. -/
  | absent
  /-- The bytes are not UTF-8. -/
  | notText
  /-- No file of that path exists. -/
  | noSuchFile
  /-- The path leads to a directory. -/
  | isDirectory
  /-- The path leads through a file as if it were a directory. -/
  | notDirectory
  deriving DecidableEq, Repr

/-- The wording of a content that cannot be had. -/
def ReadFault.message : ReadFault → String
  | absent => "entity not found"
  | notText => "stream did not contain valid UTF-8"
  | noSuchFile => "No such file or directory (os error 2)"
  | isDirectory => "Is a directory (os error 21)"
  | notDirectory => "Not a directory (os error 20)"

/-- Why an operation of the library fails. -/
inductive Failure
  /-- A search location asks for every root at once. -/
  | wildcardLocation (location : String)
  /-- A part of the search path names nothing. -/
  | blankSearchPath (part : String)
  /-- A search location is neither a directory nor a file of a known format. -/
  | unknownExtension (location : String)
  /-- A profile name or profile expression is refused. -/
  | invalidProfile (profile : String) (fault : ProfileFault)
  /-- Expanding the references of a text does not come to an end. -/
  | circularPlaceholder (text : String)
  /-- The content of a resource cannot be had. -/
  | unreadable (location : String) (fault : ReadFault)
  /-- The content of a resource is not of its format. -/
  | malformed (location : String)
  /-- A location that was probed could not be loaded. -/
  | loadFailed (location : String) (cause : Failure)
  /-- The settings file cannot be had or is not of its format. -/
  | invalidSettings (path : String)
  deriving DecidableEq, Repr

namespace Failure

/-- The wording of a failure, without that of its cause. -/
def message : Failure → String
  | wildcardLocation location =>
    "classpath wildcard patterns cannot be used as a search location: '" ++ location ++ "'"
  | blankSearchPath part => "invalid search path: " ++ part ++ " must not be empty"
  | unknownExtension location =>
    "file extension of config file location '" ++ location ++
      "' is not known to any document loader; if the location is meant to reference a " ++
      "directory, it must end in '/'"
  | invalidProfile profile fault => "invalid profile '" ++ profile ++ "': " ++ fault.message
  | circularPlaceholder text => "circular placeholder reference in '" ++ text ++ "'"
  | unreadable location fault => "failed to read " ++ location ++ ": " ++ fault.message
  | malformed location => "failed to parse " ++ location
  | loadFailed location _ => "failed to load property source from location '" ++ location ++ "'"
  | invalidSettings path => "invalid settings file at " ++ path

/-- The failure that brought this one about. -/
def cause? : Failure → Option Failure
  | loadFailed _ cause => some cause
  | _ => none

/-- The wordings of the failure, of its cause, of the cause of that and so on. -/
def wordings : Failure → List String
  | loadFailed location cause => (loadFailed location cause).message :: cause.wordings
  | unreadable location fault => [(unreadable location fault).message, fault.message]
  | failure => [failure.message]

/-- Two steps succeed together when the first succeeds and the second does from there. -/
theorem bind_eq_ok_iff {α β : Type} {x : Except Failure α} {f : α → Except Failure β} {b : β} :
    (x >>= f) = .ok b ↔ ∃ a, x = .ok a ∧ f a = .ok b := by
  cases x <;> simp [bind, Except.bind]

end Failure

end LayeredConfig
