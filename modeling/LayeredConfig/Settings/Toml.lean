import LayeredConfig.Settings
import LayeredConfig.Toml.Draft

/-!
# Settings in TOML

The fields of a settings file have the names of the settings with underscores. A field that is
missing counts as empty, one with another name for nothing, and one of another type is refused.

## Main definitions

* `Settings.ofToml?`.
-/

namespace LayeredConfig.Settings

open Toml (Item)

/-- The key under which a date or a time stands in a table of its own. -/
def stampKey : String := "$__toml_private_datetime"

/-- The structured value of a number. Numbers that are not finite are null. -/
def numberTree : Toml.Number → Tree
  | .finite value => .real value
  | .infinite _ | .undefined => .null

mutual

/-- The structured value of an item, with fields in the order of the text. -/
def itemTree : Item → Tree
  | .text value => .text value
  | .int value => .int value
  | .real value => numberTree value
  | .flag value => .flag value
  | .stamp value => .table [(stampKey, .text value)]
  | .list items => .list (itemTrees items)
  | .inline fields => .table (itemFields fields)
  | .table _ fields => .table (itemFields fields)
  | .tables elements => .list (itemTrees elements)

/-- The structured values of items. -/
def itemTrees : List Item → List Tree
  | [] => []
  | item :: items => itemTree item :: itemTrees items

/-- The structured values of fields. -/
def itemFields : List (String × Item) → List (String × Tree)
  | [] => []
  | (key, item) :: fields => (key, itemTree item) :: itemFields fields

end

/-- The text of an item that is one. -/
def itemText? : Item → Option String
  | .text value => some value
  | _ => none

/-- The texts of an item that is a list of them. -/
def itemTexts? : Item → Option (List String)
  | .list items => items.mapM itemText?
  | _ => none

/-- The fields of an item that is a table. -/
def itemTable? (item : Item) : Option (List (String × Tree)) :=
  match itemTree item with
  | .table fields => some fields
  | _ => none

/-- The settings of a TOML text. -/
def ofToml? (text : String) : Option Settings := do
  let fields ← Toml.read text
  let item (name : String) : Option Item := Pairs.get? name fields
  let texts (name : String) : Option (List String) :=
    (item name).elim (some []) itemTexts?
  return {
    searchLocations := ← (item Field.searchLocations).mapM itemText?
    searchNames := ← (item Field.searchNames).mapM itemText?
    classpath := ← texts Field.classpath
    defaultProfiles := ← texts Field.defaultProfiles
    defaultProperties := ← (item Field.defaultProperties).elim (some []) itemTable? }

end LayeredConfig.Settings
