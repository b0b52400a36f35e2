import LayeredConfig.Json.Printer
import LayeredConfig.Source
import LayeredConfig.Yaml.Value

/-!
# From YAML values to structured values

Under the key `<<` a mapping takes in the fields of other mappings, as far as it does not have
their keys. A structured value has texts for keys, tags become tables with one field, and numbers
that are not finite become null.

## Main definitions

* `Yaml.Value.merged?`: the fields of a mapping with those that it takes in.
* `Yaml.Value.tree?`: the structured value.
-/

namespace LayeredConfig.Yaml.Value

/-- The fields of a mapping. -/
abbrev Fields : Type := List (Value × Value)

/-! ### Taking in fields -/

/-- The key under which the mappings stand that another takes in. -/
def mergeKey : Value := .scalar (.text "<<")

/-- Fields with those of others that have other keys. -/
def absorb (fields others : Fields) : Fields :=
  others.foldl (fun found field => if hasKey field.1 found then found else found ++ [field]) fields

/-- Fields without the one with the given key, and what that holds. The last field moves into its
place. -/
def takeOut (key : Value) (fields : Fields) : Option (Value × Fields) := do
  let index ← fields.findIdx? fun field => key.same field.1
  let (_, found) ← fields[index]?
  let last ← fields.getLast?
  return (found, (fields.set index last).dropLast)

/-- Fields with those of an item under the merge key, which must be a mapping. -/
def absorbItem (fields : Fields) : Value → Option Fields
  | .mapping others => some (absorb fields others)
  | _ => none

/-- The fields of a mapping with those that it takes in: from one mapping, or from several in
order. -/
def merged? (fields : Fields) : Option Fields :=
  match takeOut mergeKey fields with
  | none => some fields
  | some (.sequence items, others) => items.foldlM absorbItem others
  | some (item, others) => absorbItem others item

/-! ### Structured values -/

/-- The structured value of a scalar. -/
def scalarTree : Scalar → Tree
  | .null | .infinite _ | .undefined => .null
  | .flag value => .flag value
  | .int value => .int value
  | .real value => .real value
  | .text value => .text value

/-- The text of a key. Null, numbers that are not finite and collections are no keys. -/
def keyText? : Value → Option String
  | .scalar (.flag value) => some (Json.flagText value)
  | .scalar (.int value) => some (toString value)
  | .scalar (.real value) => some (value.text Json.realStyle)
  | .scalar (.text value) => some value
  | _ => none

mutual

/-- How deep values are nested in a value. -/
def height : Value → Nat
  | .scalar _ => 0
  | .sequence items => itemsHeight items + 1
  | .mapping fields => fieldsHeight fields + 1
  | .tagged _ value => value.height + 1

/-- How deep values are nested in items. -/
def itemsHeight : List Value → Nat
  | [] => 0
  | item :: items => max item.height (itemsHeight items)

/-- How deep values are nested in the contents of fields. -/
def fieldsHeight : Fields → Nat
  | [] => 0
  | (_, value) :: fields => max value.height (fieldsHeight fields)

end

/-- The structured value of a value in which others are nested up to `depth` deep. Of fields whose
keys have the same text the last one counts. -/
def treeTo? : Nat → Value → Option Tree
  | _, .scalar value => some (scalarTree value)
  | depth + 1, .sequence items => (items.mapM (treeTo? depth)).map .list
  | depth + 1, .mapping fields => do
    let fields ← merged? fields
    let found ← fields.mapM fun (key, value) => do
      return (← keyText? key, ← treeTo? depth value)
    return .table (Pairs.ofList found)
  | depth + 1, .tagged name value => do
    return .table [("!" ++ name, ← treeTo? depth value)]
  | 0, _ => none

/-- The structured value. Taking in fields nests no value deeper than it was. -/
def tree? (value : Value) : Option Tree := treeTo? value.height value

end LayeredConfig.Yaml.Value
