import LayeredConfig.Json.Printer
import LayeredConfig.Yaml.Style

/-!
# Writing YAML

A table stands with one field a line, and a list with one item a line after a dash. A list that is
the content of a field stands in the column of the field; any other list or table inside of
another stands two columns further in.

## Main definitions

* `Yaml.document`: a table as a document.
-/

namespace LayeredConfig.Yaml

/-- Real numbers are positional from `10 ^ -5` up to below `10 ^ 16`, and no positive exponent has
a sign. -/
def realStyle : RealStyle := ⟨-5, 16, ""⟩

/-- The text goes on in a line of its own, in the given column. -/
def startLine (column : Nat) (written : List Char) : List Char :=
  let isStarted := written.getLast?.all isBreak
  written ++ ((if isStarted then [] else ['\n']) ++ spaces column)

/-- Texts one after the other, each in a line of its own but the first. -/
def joinLines (column : Nat) : List (List Char) → List Char
  | [] => []
  | [text] => text
  | text :: texts => startLine column text ++ joinLines column texts

/-- A key is short and has no line end, so that its value may stand in the same line. -/
def isSimpleKey (key : String) : Bool :=
  key.utf8ByteSize ≤ 128 && !key.toList.any isBreak

/-- A field with its content as it stands after a colon, which may begin with a line end. A key
that is not simple has a line of its own after a question mark. -/
def fieldLine (column : Nat) (key : String) (content : List Char) : List Char :=
  let written := styled (column + 2) key
  if isSimpleKey key then written ++ ':' :: content
  else startLine column ('?' :: ' ' :: written) ++ ':' :: content

/-- The lines of a list or table inside of another, as they stand after a sign: in the same line, or
where `isBelow` holds in the next one. -/
def nested (isBelow : Bool) (column : Nat) (lines : List (List Char)) : List Char :=
  (if isBelow then '\n' :: spaces column else [' ']) ++ joinLines column lines

mutual

/-- A value as it stands after a sign in a list or table that begins in the given column. Where
`isBelow` holds, the sign is the colon after a simple key. -/
def contentText (isBelow : Bool) (column : Nat) : Tree → List Char
  | .null => " null".toList
  | .flag value => ' ' :: (Json.flagText value).toList
  | .int value => ' ' :: (toString value).toList
  | .real value => ' ' :: (value.text realStyle).toList
  | .text value => ' ' :: styled (column + 2) value
  | .list items =>
    let inner := if isBelow then column else column + 2
    if items.isEmpty then " []".toList else nested isBelow inner (itemLines inner items)
  | .table fields =>
    if fields.isEmpty then [' ', '{', '}']
    else nested isBelow (column + 2) (fieldLines (column + 2) fields)

/-- The items of a list that begins in the given column. -/
def itemLines (column : Nat) : List Tree → List (List Char)
  | [] => []
  | item :: items => ('-' :: contentText false column item) :: itemLines column items

/-- The fields of a table that begins in the given column. -/
def fieldLines (column : Nat) : List (String × Tree) → List (List Char)
  | [] => []
  | (key, value) :: fields =>
    fieldLine column key (contentText (isSimpleKey key) column value) :: fieldLines column fields

end

/-- A table as a document. -/
def document (fields : List (String × Tree)) : String :=
  let written := if fields.isEmpty then ['{', '}'] else joinLines 0 (fieldLines 0 fields)
  String.ofList (startLine 0 written)

end LayeredConfig.Yaml
