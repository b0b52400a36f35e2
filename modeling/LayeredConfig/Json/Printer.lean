import LayeredConfig.Tree

/-!
# Writing JSON

## Main definitions

* `Json.quoted`: a string in quotes.
* `Json.compact`: a value without any space.
* `Json.pretty`: a value with one item a line, indented by two spaces a level.
-/

namespace LayeredConfig.Json

/-- A control character as `\u` with four hexadecimal digits. -/
def controlEscape (c : Char) : List Char :=
  let digits := Nat.toDigits 16 c.toNat
  ['\\', 'u'] ++ List.replicate (4 - digits.length) '0' ++ digits

/-- A character as it is written inside quotes. -/
def escaped (c : Char) : List Char :=
  if c = '"' then ['\\', '"']
  else if c = '\\' then ['\\', '\\']
  else if c = '\n' then ['\\', 'n']
  else if c = '\r' then ['\\', 'r']
  else if c = '\t' then ['\\', 't']
  else if c = '\x08' then ['\\', 'b']
  else if c = '\x0c' then ['\\', 'f']
  else if c.toNat < 0x20 then controlEscape c
  else [c]

/-- A string in quotes. -/
def quoted (text : String) : String :=
  String.ofList ('"' :: text.toList.flatMap escaped ++ ['"'])

mutual

/-- A value without any space. -/
def compact : Tree → String
  | .null => "null"
  | .flag value => flagText value
  | .int value => toString value
  | .real value => value.text realStyle
  | .text value => quoted value
  | .list items => "[" ++ ",".intercalate (compactItems items) ++ "]"
  | .table fields => "\x7b" ++ ",".intercalate (compactFields fields) ++ "\x7d"

/-- The items of a list, each without any space. -/
def compactItems : List Tree → List String
  | [] => []
  | item :: items => compact item :: compactItems items

/-- The fields of a table, each without any space. -/
def compactFields : List (String × Tree) → List String
  | [] => []
  | (key, value) :: fields => (quoted key ++ ":" ++ compact value) :: compactFields fields

end

/-- Lines between two brackets, one level further in. -/
def bracketed (opening closing indent : String) (lines : List String) : String :=
  if lines.isEmpty then opening ++ closing
  else
    let inner := indent ++ "  "
    opening ++ "\n" ++ ",\n".intercalate (lines.map (inner ++ ·)) ++ "\n" ++ indent ++ closing

mutual

/-- A value with one item a line, after the indentation of its own line. -/
def pretty (indent : String) : Tree → String
  | .list items => bracketed "[" "]" indent (prettyItems (indent ++ "  ") items)
  | .table fields => bracketed "\x7b" "\x7d" indent (prettyFields (indent ++ "  ") fields)
  | .null => "null"
  | .flag value => flagText value
  | .int value => toString value
  | .real value => value.text realStyle
  | .text value => quoted value

/-- The items of a list, each as it stands on lines of its own. -/
def prettyItems (indent : String) : List Tree → List String
  | [] => []
  | item :: items => pretty indent item :: prettyItems indent items

/-- The fields of a table, each as it stands on lines of its own. -/
def prettyFields (indent : String) : List (String × Tree) → List String
  | [] => []
  | (key, value) :: fields =>
    (quoted key ++ ": " ++ pretty indent value) :: prettyFields indent fields

end

end LayeredConfig.Json
