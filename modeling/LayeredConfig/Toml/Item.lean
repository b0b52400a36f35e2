import LayeredConfig.Decimal.Binary64
import LayeredConfig.Source

/-!
# TOML values

Tables remember how they came about, because that decides which later statements may add to
them. A table in braces is finished at once. Fields stand in the order of the text.

## Main definitions

* `Toml.Number`, `Toml.Item`.
* `Toml.TableKind`, `Toml.descend`: the table that a path leads to, made on the way if needed.
-/

namespace LayeredConfig.Toml

/-- A real number of a TOML file. -/
inductive Number
  | finite (value : Binary64)
  | infinite (negative : Bool)
  | undefined
  deriving DecidableEq, Repr

/-- How a table came about. -/
inductive TableKind
  /-- By a header of its own, or as the whole file. -/
  | defined
  /-- By the header of a table inside it. -/
  | implied
  /-- By a dotted key. -/
  | dotted
  deriving DecidableEq, Repr

/-- A value, or a table that may still grow. -/
inductive Item
  | text (value : String)
  | int (value : Int)
  | real (value : Number)
  | flag (value : Bool)
  /-- A date, a time or both, as written in full. -/
  | stamp (value : String)
  | list (items : List Item)
  /-- A table in braces. -/
  | inline (fields : List (String × Item))
  | table (kind : TableKind) (fields : List (String × Item))
  /-- An array of tables, each with a header. -/
  | tables (elements : List Item)
  deriving Repr, Inhabited

/-- The fields of a table with its kind. -/
abbrev Table : Type := TableKind × List (String × Item)

/-- Changes the table that a path leads to, with a result. A table that is missing on the way
is made; of an array of tables, the last is meant. Where `byKey` holds, the path is that of a
dotted key, which must not lead through a table with a header. -/
def descend {α : Type} (byKey : Bool) (change : Table → Option (α × Table)) :
    List String → Table → Option (α × Table)
  | [], table => change table
  | key :: path, (kind, fields) =>
    let missing := if byKey then TableKind.dotted else .implied
    let store (item : Item) : Table := (kind, Pairs.put key item fields)
    match Pairs.get? key fields with
    | none => do
      let (result, k, f) ← descend byKey change path (missing, [])
      return (result, store (.table k f))
    | some (.table k f) =>
      if byKey ∧ k = .defined then none
      else do
        let (result, k, f) ← descend byKey change path (k, f)
        return (result, store (.table k f))
    | some (.tables elements) =>
      match elements.getLast? with
      | some (.table k f) => do
        let (result, k, f) ← descend byKey change path (k, f)
        return (result, store (.tables (elements.dropLast ++ [.table k f])))
      | _ => none
    | some _ => none

/-- Adds the value of a dotted key to a table. A key without dots does not extend a table made
by dots, nor the other way round, and no key is given twice. -/
def assign (path : List String) (key : String) (value : Item) (table : Table) : Option Table :=
  let add : Table → Option (Unit × Table) := fun (kind, fields) =>
    if decide (kind = .dotted) = path.isEmpty then none
    else
      match Pairs.get? key fields with
      | some _ => none
      | none => some ((), kind, Pairs.put key value fields)
  (descend true add path table).map Prod.snd

end LayeredConfig.Toml
