import LayeredConfig.Failure
import LayeredConfig.Text

/-!
# Property sources

A source is a named list of keys with values, in the order in which the keys were first
inserted. Each value may carry the place it was read from.

A key holds a list either as one comma-separated value or as indexed entries `key[0]`,
`key[1]` and so on without a gap. The plain key wins within a source, and the first source
that has either form wins among sources.

## Main definitions

* `Origin`, `Origin.text`: a place, and how it is written.
* `Property`: a value with its origin.
* `Source`, `Source.insert`, `Source.get?`, `Source.without`.
* `environmentName`: the name under which a key is looked up among environment variables.
* `Source.indexed`: the indexed entries of a key.
* `Source.list?`, `Source.firstList?`: the list that a key holds.
-/

namespace LayeredConfig

/-- Where a value was read from. -/
structure Origin where
  resource : String
  line : Option Nat := none
  column : Option Nat := none
  document : Option Nat := none
  deriving DecidableEq, Repr

namespace Origin

/-- The resource, then line and column where both are known, then the document. -/
def text (origin : Origin) : String :=
  let position :=
    match origin.line, origin.column with
    | some line, some column => ":" ++ toString line ++ ":" ++ toString column
    | _, _ => ""
  let document :=
    match origin.document with
    | some index => " (document #" ++ toString index ++ ")"
    | none => ""
  origin.resource ++ position ++ document

end Origin

/-- A value and where it was read from. -/
structure Property where
  value : String
  origin : Option Origin := none
  deriving DecidableEq, Repr

/-- How the keys of a source are matched. -/
inductive SourceKind
  /-- Keys match as they are written. -/
  | plain
  /-- Keys also match their form as names of environment variables. -/
  | systemEnvironment
  deriving DecidableEq, Repr

/-- The name of the environment variable for a key: dots, dashes and opening brackets become
underscores, closing brackets go, and ASCII letters become capitals. -/
def environmentName (key : String) : String :=
  String.ofList <| (key.toList.filter (· != ']')).map fun c =>
    if c = '.' ∨ c = '-' ∨ c = '[' then '_' else c.toUpper

/-! ### Pairs in order of insertion -/

namespace Pairs

variable {α : Type}

/-- Sets the value of a key. A key that is there keeps its place, a new one goes to the end. -/
def put (key : String) (value : α) : List (String × α) → List (String × α)
  | [] => [(key, value)]
  | (k, v) :: pairs => if k = key then (k, value) :: pairs else (k, v) :: put key value pairs

/-- The value of a key. -/
def get? (key : String) : List (String × α) → Option α
  | [] => none
  | (k, v) :: pairs => if k = key then some v else get? key pairs

/-- The pairs that result from setting the given ones in order. -/
def ofList (pairs : List (String × α)) : List (String × α) :=
  pairs.foldl (fun done pair => put pair.1 pair.2 done) []

/-- The pairs with their values changed. -/
def mapValues {β : Type} (f : α → β) (pairs : List (String × α)) : List (String × β) :=
  pairs.map fun pair => (pair.1, f pair.2)

variable {β : Type} (f : α → β)

theorem mapValues_put (key : String) (value : α) (pairs : List (String × α)) :
    mapValues f (put key value pairs) = put key (f value) (mapValues f pairs) := by
  induction pairs with
  | nil => rfl
  | cons pair pairs ih =>
    simp only [mapValues] at ih
    by_cases h : pair.1 = key <;> simp [put, mapValues, h, ih]

theorem mapValues_ofList (pairs : List (String × α)) :
    mapValues f (ofList pairs) = ofList (mapValues f pairs) := by
  suffices h : ∀ done : List (String × α),
      mapValues f (pairs.foldl (fun done pair => put pair.1 pair.2 done) done) =
        (mapValues f pairs).foldl (fun done pair => put pair.1 pair.2 done) (mapValues f done) by
    exact h []
  induction pairs with
  | nil => simp [mapValues]
  | cons pair pairs ih =>
    intro done
    simp only [List.foldl_cons, ih, mapValues_put]
    rfl

theorem get?_mapValues (key : String) (pairs : List (String × α)) :
    get? key (mapValues f pairs) = (get? key pairs).map f := by
  induction pairs with
  | nil => rfl
  | cons pair pairs ih =>
    simp only [mapValues] at ih
    by_cases h : pair.1 = key <;> simp [get?, mapValues, h, ih]

theorem get?_put (key other : String) (value : α) (pairs : List (String × α)) :
    get? other (put key value pairs) = if key = other then some value else get? other pairs := by
  induction pairs with
  | nil => rfl
  | cons pair pairs ih =>
    by_cases hkey : pair.1 = key
    · rw [put, if_pos hkey, get?, get?, hkey]
      split <;> rfl
    · rw [put, if_neg hkey, get?, get?, ih]
      by_cases hother : pair.1 = other
      · rw [if_pos hother, if_neg fun heq => hkey (hother.trans heq.symm), if_pos hother]
      · rw [if_neg hother, if_neg hother]

end Pairs

/-- A named list of properties. -/
structure Source where
  name : String
  kind : SourceKind := .plain
  entries : List (String × Property) := []
  deriving DecidableEq, Repr

namespace Source

/-- A source of values without origins. -/
def ofPairs (name : String) (pairs : List (String × String)) : Source :=
  { name, entries := Pairs.ofList (pairs.map fun (key, value) => (key, { value })) }

/-- The name of the source that holds the environment variables of the process. -/
def systemEnvironmentName : String := "systemEnvironment"

/-- The source of the given environment variables. -/
def ofVariables (vars : List (String × String)) : Source :=
  { ofPairs systemEnvironmentName vars with kind := .systemEnvironment }

/-- Sets the property of a key; a key that is there keeps its place. -/
def insert (source : Source) (key : String) (property : Property) : Source :=
  { source with entries := Pairs.put key property source.entries }

/-- The property of a key, under the key itself or else, among environment variables, under
the variable's name for it. -/
def get? (source : Source) (key : String) : Option Property :=
  match Pairs.get? key source.entries, source.kind with
  | some property, _ => some property
  | none, .systemEnvironment => Pairs.get? (environmentName key) source.entries
  | none, .plain => none

/-- The source has a property for the key. -/
def contains (source : Source) (key : String) : Bool :=
  (source.get? key).isSome

/-- The number of keys. -/
def size (source : Source) : Nat :=
  source.entries.length

/-- The source without the given keys. -/
def without (source : Source) (keys : List String) : Source :=
  { source with entries := source.entries.filter fun (key, _) => !keys.contains key }

/-- The source under another name, its keys matched as they are written. -/
def renamed (source : Source) (name : String) : Source :=
  { name, entries := source.entries }

end Source

/-! ### Keys with a list of values -/

/-- The key of the entry with the given index. -/
def indexedKey (key : String) (index : Nat) : String :=
  key ++ "[" ++ toString index ++ "]"

namespace Source

/-- The entries `key[0]`, `key[1]`, … up to the first that is missing. A source cannot hold
more of them than it has entries. -/
def indexed (source : Source) (key : String) : List Property :=
  (((List.range source.size).map fun index => source.get? (indexedKey key index)).takeWhile
    Option.isSome).filterMap id

/-- The list that a key holds in a source; the references in it are resolved first. -/
def list? (source : Source) (resolve : String → Except Failure String) (key : String) :
    Except Failure (Option (List String)) :=
  match source.get? key with
  | some property => do
    let value ← resolve property.value
    return some (Text.splitList value)
  | none => do
    let items ← (source.indexed key).mapM fun property => resolve property.value
    if items.isEmpty then return none
    return some ((items.map Text.trimmed).filter fun item => !item.isEmpty)

/-- The list that a key holds in the first of several sources to define it. -/
def firstList? (sources : List Source) (resolve : String → Except Failure String)
    (key : String) : Except Failure (Option (List String)) :=
  match sources with
  | [] => .ok none
  | source :: others => do
    match ← source.list? resolve key with
    | some items => return some items
    | none => firstList? others resolve key

end Source

end LayeredConfig
