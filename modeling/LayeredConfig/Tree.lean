import LayeredConfig.Decimal.Shortest

/-!
# Structured values

The value of a structured document: scalars, lists, and tables whose keys stand in order.

The leaves of a value become pairs of a key and a text. The key is the path to the leaf: names
of fields joined by dots, indexes of items in brackets. The text of a number or a truth value is
that of JSON. An empty list or table counts as a leaf with an empty text, except for an empty table
at the root.

## Main definitions

* `Tree`.
* `Tree.flatten`: the pairs below a path.
* `Tree.entries`: the pairs of a whole document.
-/

namespace LayeredConfig

/-- The value of a structured document. -/
inductive Tree
  | null
  | flag (value : Bool)
  | int (value : Int)
  | real (value : Binary64)
  | text (value : String)
  | list (items : List Tree)
  | table (fields : List (String × Tree))
  deriving Repr, BEq, Inhabited

/-! ### Texts of scalars -/

namespace Json

/-- Real numbers are positional from `10 ^ -5` up to below `10 ^ 16`, and the sign of any
other exponent is written. -/
def realStyle : RealStyle := ⟨-5, 16, "+"⟩

/-- The text of a truth value. -/
def flagText (value : Bool) : String := if value then "true" else "false"

end Json

/-! ### Leaves -/

namespace Tree

/-- The path to a field below a path. -/
def fieldPath (path key : String) : String :=
  if path = "" then key else path ++ "." ++ key

/-- The path to an item below a path. -/
def itemPath (path : String) (index : Nat) : String :=
  path ++ "[" ++ toString index ++ "]"

mutual

/-- The leaves of a value below a path, in document order. -/
def flatten (path : String) : Tree → List (String × String)
  | .null => [(path, "")]
  | .flag value => [(path, Json.flagText value)]
  | .int value => [(path, toString value)]
  | .real value => [(path, value.text Json.realStyle)]
  | .text value => [(path, value)]
  | .list items => if items.isEmpty then [(path, "")] else flattenItems path 0 items
  | .table fields =>
    if fields.isEmpty && path != "" then [(path, "")] else flattenFields path fields

/-- The leaves of the items of a list, from the item with the given index on. -/
def flattenItems (path : String) (index : Nat) : List Tree → List (String × String)
  | [] => []
  | item :: items => flatten (itemPath path index) item ++ flattenItems path (index + 1) items

/-- The leaves of the fields of a table. -/
def flattenFields (path : String) : List (String × Tree) → List (String × String)
  | [] => []
  | (key, value) :: fields => flatten (fieldPath path key) value ++ flattenFields path fields

end

/-- The path to a document that is not a table. -/
def rootPath : String := "document"

/-- The leaves of a document. -/
def entries : Tree → List (String × String)
  | .table fields => flatten "" (.table fields)
  | other => flatten rootPath other

end Tree

end LayeredConfig
