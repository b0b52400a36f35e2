import LayeredConfig.Toml.Scalar

/-!
# TOML statements

A file is a list of statements, each on a line of its own: the header of a table, the header of
an element of an array of tables, or a key with its value. Lists and tables in braces may be
nested 79 deep, and a dotted key may have 79 parts.

## Main definitions

* `Toml.Statement`.
* `Toml.value`, `Toml.dottedKey`, `Toml.statements`.
-/

namespace LayeredConfig.Toml

open Text (Reader)

/-- A line of a file. The name of a table or value stands apart from the path before it. -/
inductive Statement
  | header (path : List String) (key : String)
  | element (path : List String) (key : String)
  | assignment (path : List String) (key : String) (value : Item)

/-- How deep lists and tables in braces may be nested. -/
def maxDepth : Nat := 79

/-! ### Blanks and comments -/

/-- A text without the comment at its start. -/
def skipComment (text : List Char) : List Char :=
  match text with
  | '#' :: rest => rest.dropWhile isPrintable
  | _ => text

/-- Takes the rest of a line that holds nothing but blanks and a comment. -/
def lineEnd (text : List Char) : Option (List Char) :=
  match skipComment (skipSpace text) with
  | [] => some []
  | rest => (newline rest).map Prod.snd

/-- Drops blanks, comments and line ends; `limit` bounds the number of lines. -/
def skipFill : Nat → List Char → List Char
  | 0, text => text
  | limit + 1, text =>
    match newline (skipComment (skipSpace text)) with
    | some ((), rest) => skipFill limit rest
    | none => skipSpace text

/-- Drops blanks, comments and line ends. -/
def skipLines (text : List Char) : List Char := skipFill text.length text

/-! ### Keys -/

/-- The characters that a key without quotes may hold. -/
def isBareChar (c : Char) : Bool :=
  c.isAlphanum || c = '_' || c = '-'

/-- Takes one part of a key. -/
def keyPart : Reader String := fun text =>
  match text with
  | c :: _ =>
    if c = '"' ∨ c = '\'' then quotedKey text
    else
      let found := text.takeWhile isBareChar
      if found.isEmpty then none
      else some (String.ofList found, text.dropWhile isBareChar)
  | [] => none

/-- Takes the parts of a dotted key; `limit` bounds their number. -/
def keyParts : Nat → Reader (List String)
  | 0 => fun _ => none
  | limit + 1 => fun text => do
    let (part, rest) ← keyPart (skipSpace text)
    match skipSpace rest with
    | '.' :: rest =>
      let (parts, rest) ← keyParts limit rest
      return (part :: parts, rest)
    | rest => return ([part], rest)

/-- Takes a dotted key: the last part, and the parts before it. -/
def dottedKey : Reader (List String × String) := fun text => do
  let (parts, rest) ← keyParts maxDepth text
  let last ← parts.getLast?
  return ((parts.dropLast, last), rest)

/-! ### Values -/

/-- Takes the rest of a list after its opening bracket or a comma. `limit` bounds the number of
the items. -/
def items (item : Reader Item) : Nat → Reader (List Item)
  | 0 => fun _ => none
  | limit + 1 => fun text =>
    match skipLines text with
    | ']' :: rest => some ([], rest)
    | text => do
      let (first, rest) ← item text
      match skipLines rest with
      | ',' :: rest =>
        let (others, rest) ← items item limit rest
        return (first :: others, rest)
      | ']' :: rest => return ([first], rest)
      | _ => none

/-- Takes a key with its value. -/
def keyValue (item : Reader Item) : Reader ((List String × String) × Item) := fun text => do
  let (key, rest) ← dottedKey text
  let ((), rest) ← expect '=' rest
  let (value, rest) ← item (skipSpace rest)
  return ((key, value), rest)

/-- Takes the rest of a table in braces, to which keys have been added. `limit` bounds the number
of further keys. -/
def fields (item : Reader Item) : Nat → Table → Reader Table
  | 0, _ => fun _ => none
  | limit + 1, table => fun text => do
    let (((path, key), value), rest) ← keyValue item text
    let table ← assign path key value table
    match skipSpace rest with
    | ',' :: rest => fields item limit table rest
    | '}' :: rest => return (table, rest)
    | _ => none

/-- Takes a list or a table in braces after its opening bracket. -/
def container (isList : Bool) (item : Reader Item) : Reader Item := fun text =>
  if isList then (items item (text.length + 1) text).map fun (found, rest) => (.list found, rest)
  else
    match skipSpace text with
    | '}' :: rest => some (.inline [], rest)
    | _ =>
      (fields item (text.length + 1) (.defined, []) text).map fun (table, rest) =>
        (.inline table.2, rest)

/-- Takes a given word. -/
def word (letters : List Char) (value : Item) : Reader Item := fun text =>
  (Text.afterStart? letters text).map (value, ·)

/-- Takes a value in which lists and tables in braces are nested up to `depth` deep. -/
def value : Nat → Reader Item := fun depth text =>
  match text with
  | 't' :: _ => word ['t', 'r', 'u', 'e'] (.flag true) text
  | 'f' :: _ => word ['f', 'a', 'l', 's', 'e'] (.flag false) text
  | c :: rest =>
    if c = '"' ∨ c = '\'' then (string text).map fun (found, rest) => (.text found, rest)
    else if c = '[' ∨ c = '{' then
      match depth with
      | 0 => none
      | depth + 1 => container (c = '[') (value depth) rest
    else do
      match ← stamp text with
      | (some found, rest) => return (.stamp found, rest)
      | (none, _) => number text
  | [] => none

/-! ### Lines -/

/-- Takes what stands on a line that is neither empty nor a comment. -/
def statement : Reader Statement
  | '[' :: '[' :: text => do
    let ((path, key), rest) ← dottedKey text
    let ((), rest) ← expect ']' rest
    let ((), rest) ← expect ']' rest
    return (.element path key, rest)
  | '[' :: text => do
    let ((path, key), rest) ← dottedKey text
    let ((), rest) ← expect ']' rest
    return (.header path key, rest)
  | text => do
    let (((path, key), value), rest) ← keyValue (value maxDepth) text
    return (.assignment path key value, rest)

/-- The statements of a text; `limit` bounds the number of lines. -/
def lines : Nat → List Char → Option (List Statement)
  | 0, _ => none
  | limit + 1, text =>
    let text := skipSpace text
    match lineEnd text with
    | some [] => some []
    | some rest => lines limit rest
    | none => do
      let (found, rest) ← statement text
      let rest ← lineEnd rest
      let others ← if rest.isEmpty then some [] else lines limit rest
      return found :: others

/-- The statements of a text, which may begin with a byte order mark. -/
def statements (text : List Char) : Option (List Statement) :=
  match text with
  | '\uFEFF' :: rest => lines (rest.length + 1) rest
  | _ => lines (text.length + 1) text

end LayeredConfig.Toml
