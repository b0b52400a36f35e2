import LayeredConfig.Json.Reader
import LayeredConfig.Properties
import LayeredConfig.Toml.Draft
import LayeredConfig.Yaml.Merge
import LayeredConfig.Yaml.Node.Reader

/-!
# The built-in formats

A JSON file is one document, and nothing but blank characters is no document. A YAML file holds any
number of documents, of which those that are null count for nothing. A TOML file is one document:
the fields of its tables are put into the order of their keys, and dates and numbers that are not
finite become texts.

## Main definitions

* `Tree.documents`: the documents of structured values.
* `Json.documents`, `Format.json`.
* `Yaml.trees`, `Format.yaml`.
* `Toml.Item.toTree`, `Format.toml`.
* `Registry.builtIn`: the built-in formats in order.
-/

namespace LayeredConfig

/-! ### JSON -/

/-- The documents of structured values, without those that have no leaf. -/
def Tree.documents (trees : List Tree) : List (List Entry) :=
  (trees.map fun tree =>
    tree.entries.map fun leaf => { key := leaf.1, text := leaf.2, place := .document : Entry })
      |>.filter fun entries => !entries.isEmpty

/-- The documents of a JSON text. -/
def Json.documents (text : String) : Option (List (List Entry)) :=
  if Text.isAllBlank text then some []
  else (Json.read text).map fun tree => Tree.documents [tree]

/-- The format of JSON files. -/
def Format.json : Format where
  name := "json"
  extensions := ["json"]
  body := .parsed Json.documents

/-! ### YAML -/

namespace Yaml

/-- The value is null, whether or not it has a tag. -/
def Value.isNull : Value → Bool
  | .scalar .null => true
  | .tagged _ value => value.isNull
  | _ => false

/-- The structured values of the documents of a text. -/
def trees (text : String) : Option (List Tree) := do
  let roots ← Yaml.documents text
  let values ← roots.mapM Node.value?
  (values.filter fun value => !value.isNull).mapM Value.tree?

end Yaml

/-- The format of YAML files. -/
def Format.yaml : Format where
  name := "yaml"
  extensions := ["yml", "yaml"]
  body := .parsed fun text => (Yaml.trees text).map Tree.documents

/-! ### TOML -/

namespace Toml

/-- The text of a real number that is not finite, or else the number itself. -/
def Number.toTree : Number → Tree
  | finite value => .real value
  | infinite negative => .text (if negative then "-inf" else "inf")
  | undefined => .text "NaN"

/-- Fields in the order of their keys. -/
def sorted (fields : List (String × Tree)) : List (String × Tree) :=
  fields.mergeSort fun a b => !decide (b.1 < a.1)

mutual

/-- The structured value of an item. -/
def Item.toTree : Item → Tree
  | .text value => .text value
  | .int value => .int value
  | .real value => value.toTree
  | .flag value => .flag value
  | .stamp value => .text value
  | .list items => .list (toTrees items)
  | .inline fields => .table (sorted (fieldTrees fields))
  | .table _ fields => .table (sorted (fieldTrees fields))
  | .tables elements => .list (toTrees elements)

/-- The structured values of items. -/
def toTrees : List Item → List Tree
  | [] => []
  | item :: items => item.toTree :: toTrees items

/-- The structured values of fields. -/
def fieldTrees : List (String × Item) → List (String × Tree)
  | [] => []
  | (key, item) :: fields => (key, item.toTree) :: fieldTrees fields

end

/-- The documents of a TOML text. -/
def documents (text : String) : Option (List (List Entry)) :=
  (read text).map fun fields => Tree.documents [.table (sorted (fieldTrees fields))]

end Toml

/-- The format of TOML files. -/
def Format.toml : Format where
  name := "toml"
  extensions := ["toml"]
  body := .parsed Toml.documents

/-! ### All of them -/

/-- The built-in formats in order of registration. -/
def Registry.builtIn : Registry := ⟨[.properties, .yaml, .toml, .json]⟩

end LayeredConfig
