import LayeredConfig.Text

/-!
# Paths and locations

A path is joined to the path of a directory as it stands, and nothing is cleaned. A location is an
optional prefix up to its first colon, leading slashes, and segments. Cleaning turns backslashes
into slashes, drops the empty segments and the dots, and lets `..` take away the segment before it.
The prefix, the root and the closing slash that marks a directory stay.

## Main definitions

* `Path.join`: a path below another one.
* `Path.fileName?`: the last name of a path.
* `Path.splitScheme`: the prefix and the rest.
* `Path.collapse`: the segments that are left of a list of segments.
* `Path.clean`: the cleaned location.
-/

namespace LayeredConfig.Path

/-! ### Joining -/

/-- A path that begins with a slash starts at the root. -/
def isAbsolute (path : String) : Bool :=
  path.toList.head? = some '/'

/-- The path `path` as seen from `base`. An absolute path is seen from the root; nothing is
cleaned. -/
def join (base path : String) : String :=
  if isAbsolute path then path
  else if base.isEmpty || base.toList.getLast? = some '/' then base ++ path
  else base ++ "/" ++ path

/-- The names between the slashes of a path, without empty names and dots. -/
def names (path : String) : List (List Char) :=
  (path.toList.splitOn '/').filter fun name => !name.isEmpty && name != ['.']

/-- The last name of a path, unless it leads to a directory above. -/
def fileName? (path : String) : Option String :=
  match (names path).getLast? with
  | some name => if name = ['.', '.'] then none else some (String.ofList name)
  | none => none

/-! ### Cleaning -/

/-- The name of the directory itself. -/
def here : List Char := ['.']

/-- The name of the directory above. -/
def above : List Char := ['.', '.']

/-- Directories end with a slash. -/
def isDirectory (location : String) : Bool :=
  location.toList.getLast? = some '/'

/-- The part up to the first colon, when no slash precedes it, and what follows. -/
def splitScheme (path : List Char) : List Char × List Char :=
  match Text.cutFirst ':' path with
  | some (before, rest) => if before.contains '/' then ([], path) else (before ++ [':'], rest)
  | none => ([], path)

/-- Puts one more segment on the stack of segments walked so far, the last one on top. -/
def walk (stack : List (List Char)) (segment : List Char) : List (List Char) :=
  if segment = [] ∨ segment = here then stack
  else if segment = above then
    match stack with
    | [] => [above]
    | top :: below => if top = above then above :: stack else below
  else segment :: stack

/-- The segments that are left once empty segments, dots and `..` have had their effect. -/
def collapse (segments : List (List Char)) : List (List Char) :=
  (segments.foldl walk []).reverse

/-- How many of the leading slashes are kept: one where no prefix precedes them, otherwise
up to the three that mark an authority and a root. -/
def keptSlashes (hasScheme : Bool) (slashes : Nat) : Nat :=
  if slashes ≤ 1 then slashes else if hasScheme then min slashes 3 else 1

/-- The cleaned form of what follows the prefix. -/
def cleanRest (hasScheme : Bool) (rest : List Char) : List Char :=
  let body := rest.dropWhile (· == '/')
  let root := List.replicate (keptSlashes hasScheme (rest.length - body.length)) '/'
  let isDirectory := body.getLast? = some '/' ∨ body = [] ∧ root ≠ []
  let cleaned := ['/'].intercalate (collapse (body.splitOn '/'))
  let marked := if isDirectory ∧ cleaned ≠ [] then cleaned ++ ['/'] else cleaned
  if root ≠ [] then root ++ marked
  else if cleaned = [] ∧ isDirectory then ['.', '/']
  else marked

/-- A location with every backslash turned into a slash. -/
def withSlashes (path : List Char) : List Char :=
  path.map fun c => if c = '\\' then '/' else c

/-- The cleaned form of a location. -/
def clean (path : String) : String :=
  let (scheme, rest) := splitScheme (withSlashes path.toList)
  String.ofList (scheme ++ cleanRest (!scheme.isEmpty) rest)

end LayeredConfig.Path
