import LayeredConfig.Toml.Statement

/-!
# Assembling TOML tables

The keys after a header go into a table of their own, which joins the others when the next
header or the end of the file comes.

## Main definitions

* `Toml.Draft`, `Toml.Draft.run`, `Toml.Draft.finish`.
* `Toml.read`: the fields of a whole file.
-/

namespace LayeredConfig.Toml

/-- The tables so far, and the one that still grows. -/
structure Draft where
  done : List (String × Item) := []
  /-- Whether the growing table is an element of an array. -/
  isElement : Bool := false
  /-- The place of the growing table; there is none as long as it is the whole file. -/
  place : Option (List String × String) := none
  growing : Table := (.defined, [])

namespace Draft

/-- Puts a table under a key among the fields of another. -/
def join (isElement : Bool) (key : String) (grown : Table) : Table → Option (Unit × Table) :=
  fun (kind, fields) =>
    let item := Item.table grown.1 grown.2
    let store (item : Item) : Option (Unit × Table) := some ((), kind, Pairs.put key item fields)
    match isElement, Pairs.get? key fields with
    | true, none => store (.tables [item])
    | true, some (.tables elements) => store (.tables (elements ++ [item]))
    | false, none => store item
    | false, some (.table .defined _) => none
    | false, some (.table _ _) => store item
    | _, some _ => none

/-- The fields of the file once the growing table has joined the others. -/
def finish (draft : Draft) : Option (List (String × Item)) :=
  match draft.place with
  | none => some draft.growing.2
  | some (path, key) => do
    let ((), _, fields) ←
      descend false (join draft.isElement key draft.growing) path (.defined, draft.done)
    return fields

/-- Takes the table under a key out of the fields of another, if a header may still be given to
it. -/
def takeOut (key : String) : Table → Option (List (String × Item) × Table) :=
  fun (kind, fields) =>
    match Pairs.get? key fields with
    | none => some ([], kind, fields)
    | some (.table .implied found) => some (found, kind, fields.filter fun pair => pair.1 != key)
    | some _ => none

/-- Makes sure that there is an array of tables under a key. -/
def openArray (key : String) : Table → Option (List (String × Item) × Table) :=
  fun (kind, fields) =>
    match Pairs.get? key fields with
    | none => some ([], kind, Pairs.put key (.tables []) fields)
    | some (.tables _) => some ([], kind, fields)
    | some _ => none

/-- The draft after a header. -/
def begin (isElement : Bool) (path : List String) (key : String) (draft : Draft) :
    Option Draft := do
  let fields ← draft.finish
  let (found, _, fields) ←
    descend false (if isElement then openArray key else takeOut key) path (.defined, fields)
  return { done := fields, isElement, place := some (path, key), growing := (.defined, found) }

/-- The draft after one more statement. -/
def run (draft : Draft) : Statement → Option Draft
  | .header path key => draft.begin false path key
  | .element path key => draft.begin true path key
  | .assignment path key value => do
    let growing ← assign path key value draft.growing
    return { draft with growing }

end Draft

/-- The fields of a TOML text. -/
def read (text : String) : Option (List (String × Item)) := do
  let found ← statements text.toList
  let draft ← found.foldlM Draft.run {}
  draft.finish

end LayeredConfig.Toml
