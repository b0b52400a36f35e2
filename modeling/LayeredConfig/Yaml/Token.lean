/-!
# Places and tokens of a YAML text

The meaning of a YAML text hangs on the columns where things stand, so reading keeps track of
the line and the column along with what is still to be read. Indentation shows in the tokens, too:
a collection that is laid out in lines begins with a token of its own and ends with `blockEnd`.

## Main definitions

* `Yaml.Cursor`: a place in a text.
* `Yaml.isBlank`, `Yaml.isBreak`: what separates words and lines.
* `Yaml.Tag`, `Yaml.Token`.
-/

namespace LayeredConfig.Yaml

/-! ### Places -/

/-- The blanks inside a line. -/
def isBlank (c : Char) : Bool := c = ' ' || c = '\t'

/-- The characters that end a line. -/
def isBreak (c : Char) : Bool :=
  c = '\n' || c = '\r' || c = '\x85' || c = '\u2028' || c = '\u2029'

/-- The characters of names: letters and digits of ASCII, `_` and `-`. -/
def isNameChar (c : Char) : Bool := c.isAlphanum || c = '_' || c = '-'

/-- A text has ended, or it goes on with a blank or the end of a line. -/
def atGap : List Char → Bool
  | [] => true
  | c :: _ => isBlank c || isBreak c

/-- A text goes on with `---` or `...` as a word of its own. -/
def atDocumentMark (text : List Char) : Bool :=
  let mark := text.take 3
  (mark = ['-', '-', '-'] || mark = ['.', '.', '.']) && atGap (text.drop 3)

/-- A place in a text. Lines and columns count from zero. -/
structure Cursor where
  /-- What is still to be read. -/
  rest : List Char
  /-- The number of characters before the place. -/
  index : Nat := 0
  line : Nat := 0
  column : Nat := 0
  deriving Repr

namespace Cursor

/-- The place so many characters further on in the line. -/
def skip (count : Nat) (here : Cursor) : Cursor :=
  { here with
    rest := here.rest.drop count, index := here.index + count, column := here.column + count }

/-- The characters from a place on that satisfy a condition, and the place after them. The
condition holds for no line end. -/
def takeWhile (p : Char → Bool) (here : Cursor) : List Char × Cursor :=
  let found := here.rest.takeWhile p
  (found, here.skip found.length)

/-- The place after the characters that satisfy a condition, which holds for no line end. -/
def skipWhile (p : Char → Bool) (here : Cursor) : Cursor :=
  (here.takeWhile p).2

/-- The line end at a place, and the place after it. All line ends count as a line feed, except
for the two separators of Unicode. -/
def lineEnd? (here : Cursor) : Option (Char × Cursor) :=
  let next (c : Char) (count : Nat) : Char × Cursor :=
    (c, { rest := here.rest.drop count, index := here.index + count, line := here.line + 1 })
  match here.rest with
  | '\r' :: '\n' :: _ => some (next '\n' 2)
  | '\n' :: _ | '\r' :: _ | '\x85' :: _ => some (next '\n' 1)
  | '\u2028' :: _ => some (next '\u2028' 1)
  | '\u2029' :: _ => some (next '\u2029' 1)
  | _ => none

/-- The place after the comment that begins at a place, if one does. -/
def skipComment (here : Cursor) : Cursor :=
  if here.rest.head? = some '#' then here.skipWhile fun c => !isBreak c else here

/-- The place after the rest of a line, which holds nothing but blanks and perhaps a
comment. -/
def finishLine? (here : Cursor) : Option Cursor :=
  let here := (here.skipWhile isBlank).skipComment
  match here.lineEnd? with
  | some (_, next) => some next
  | none => if here.rest.isEmpty then some here else none

/-- A document mark stands at the start of a line. -/
def atDocumentMark (here : Cursor) : Bool :=
  here.column = 0 && Yaml.atDocumentMark here.rest

end Cursor

/-! ### Tokens -/

/-- A tag as bytes of UTF-8, which an escape in the text may have made malformed. -/
abbrev Tag : Type := List UInt8

/-- The bytes of a text. -/
def bytes (text : String) : List UInt8 := text.toUTF8.toList

/-- A token of a YAML text. The end of the list of tokens is the end of the text. -/
inductive Token
  | version (major minor : Nat)
  /-- A handle with what it stands for at the start of tags. -/
  | handle (name : List Char) (start : Tag)
  | documentStart
  | documentEnd
  /-- A sequence begins that is laid out in lines. -/
  | sequenceStart
  /-- A mapping begins that is laid out in lines. -/
  | mappingStart
  | blockEnd
  | openBracket
  | closeBracket
  | openBrace
  | closeBrace
  | comma
  | dash
  | key
  | value
  | alias (name : List Char)
  | anchor (name : List Char)
  | tag (handle : List Char) (suffix : Tag)
  | scalar (text : List Char) (isPlain : Bool)
  deriving DecidableEq, Repr

end LayeredConfig.Yaml
