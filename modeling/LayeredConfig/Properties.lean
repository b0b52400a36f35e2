import LayeredConfig.Format

/-!
# Properties files

A natural line ends with a line feed, a carriage return, or both. A natural line that ends in
an odd number of backslashes continues on the next one: the last backslash goes, and so do the
blanks at the start of the next line. A comment does not continue.

A joined line holds a key and a value, separated by blanks, by `=` or by `:`. Backslashes escape
characters in both. A value keeps the line and the column where its key begins.

The joined lines, their keys and their values come from the parser of another library, for which
the definitions up to `Properties.content` stand. It is granted of the parser that a natural line
ends with a line feed, a carriage return, or both, that spaces, tabs and form feeds at the start of
a line are skipped, and that a joined line is reported with the number of the natural line on which
it begins. `Properties.naturalLines_append_end`, `Properties.content_append` and
`Properties.exists_natural_of_mem` say this of the definitions. The column is not the parser's.

## Main definitions

* `Properties.naturalLines`: the natural lines of a text.
* `Properties.Line`, `Properties.logicalLines`: the joined lines with the numbers of the natural
  lines on which they begin.
* `Properties.unescape`: a text without its escapes.
* `Properties.cutKey`, `Properties.cutValue`: the parts of a line.
* `Properties.column`: the column where the key of a line begins.
* `Format.properties`.
-/

namespace LayeredConfig.Properties

/-! ### Lines -/

/-- The characters that separate a key from its value, apart from the two signs. -/
def isSpace (c : Char) : Bool :=
  c = ' ' || c = '\t' || c = '\x0c' || c = '\r' || c = '\n'

/-- The natural lines of a text that follows the characters `line` of the first of them, the
last character first. -/
def linesAfter (line : List Char) : List Char → List (List Char)
  | [] => [line.reverse]
  | '\r' :: '\n' :: text => line.reverse :: linesAfter [] text
  | c :: text =>
    if c = '\r' ∨ c = '\n' then line.reverse :: linesAfter [] text
    else linesAfter (c :: line) text

/-- The natural lines of a text. What follows the last line end is a line too, even if it is
empty. -/
def naturalLines (text : List Char) : List (List Char) :=
  linesAfter [] text

/-- A line whose first character other than a space is `#` or `!` is a comment. -/
def isComment (line : List Char) : Bool :=
  match line.dropWhile isSpace with
  | c :: _ => c = '#' || c = '!'
  | [] => false

/-- A line continues when it ends in an odd number of backslashes. -/
def continues (line : List Char) : Bool :=
  (line.reverse.takeWhile (· == '\\')).length % 2 == 1

/-- A joined line and the number of the natural line on which it begins. -/
structure Line where
  number : Nat
  text : List Char
  deriving DecidableEq, Repr

/-- Joins natural lines, the first of which has the given number. `begun` is a line that goes
on with the first of them; a line that goes on at the end of the text is lost. -/
def joinLines (begun : Option Line) (number : Nat) : List (List Char) → List Line
  | [] => []
  | next :: others =>
    match begun with
    | none =>
      if isComment next then ⟨number, next⟩ :: joinLines none (number + 1) others
      else if continues next then
        joinLines (some ⟨number, next.dropLast⟩) (number + 1) others
      else ⟨number, next⟩ :: joinLines none (number + 1) others
    | some line =>
      let joined := line.text ++ Text.trimStart next
      if continues next then
        joinLines (some ⟨line.number, joined.dropLast⟩) (number + 1) others
      else ⟨line.number, joined⟩ :: joinLines none (number + 1) others

/-- The joined lines of a text. -/
def logicalLines (text : List Char) : List Line :=
  joinLines none 1 (naturalLines text)

/-! ### Escapes -/

/-- The character that the four characters after `\u` stand for. The first of them may be a
plus sign. -/
def unicode? : List Char → Option Char
  | '+' :: digits => (Text.number? 16 digits).bind Text.charOf?
  | digits => (Text.number? 16 digits).bind Text.charOf?

/-- The character that a letter stands for after a backslash. -/
def shortEscape (c : Char) : Char :=
  if c = 't' then '\t' else if c = 'n' then '\n' else if c = 'f' then '\x0c'
  else if c = 'r' then '\r' else c

/-- A text without its escapes. There is none when `\u` is not followed by four characters that
stand for one. -/
def unescape : List Char → Option (List Char)
  | [] => some []
  | '\\' :: 'u' :: a :: b :: c :: d :: text => do
    let found ← unicode? [a, b, c, d]
    let rest ← unescape text
    return found :: rest
  | '\\' :: 'u' :: _ => none
  | '\\' :: c :: text => (unescape text).map (shortEscape c :: ·)
  | ['\\'] => some ['\x00']
  | c :: text => (unescape text).map (c :: ·)

/-! ### The parts of a line -/

/-- A sign that separates a key from its value. -/
def isSign (c : Char) : Bool := c = '=' || c = ':'

/-- The key at the start of a line, as it is written, and what follows it. -/
def cutKey : List Char → List Char × List Char
  | [] => ([], [])
  | '\\' :: c :: line =>
    let (key, rest) := cutKey line
    ('\\' :: c :: key, rest)
  | c :: line =>
    if isSpace c || isSign c then ([], c :: line)
    else
      let (key, rest) := cutKey line
      (c :: key, rest)

/-- The value after a key, as it is written: what follows the blanks, one sign and the blanks
after it. There is none where nothing follows the key. -/
def cutValue (rest : List Char) : Option (List Char) :=
  if rest.isEmpty then none
  else
    match rest.dropWhile isSpace with
    | c :: after => if isSign c then some (after.dropWhile isSpace) else some (c :: after)
    | [] => some []

/-- What a line holds. -/
inductive Content
  | nothing
  | pair (key value : List Char)
  deriving DecidableEq, Repr

/-- What a line holds. There is no answer when an escape is malformed, in a comment too. -/
def content (line : List Char) : Option Content :=
  let text := line.dropWhile isSpace
  if isComment line then (unescape text).map fun _ => .nothing
  else
    let (key, rest) := cutKey text
    match cutValue rest with
    | none =>
      if key.isEmpty then some .nothing
      else (unescape key).map fun key => .pair key []
    | some value => do
      let key ← unescape key
      let value ← unescape value
      return .pair key value

/-! ### Documents -/

/-- The column where the first character other than a blank stands on the line with the given
number. -/
def column (lines : List (List Char)) (number : Nat) : Nat :=
  match number with
  | 0 => 1
  | index + 1 => ((lines[index]?).elim 0 fun line => (line.takeWhile Text.isBlank).length) + 1

/-- The entry of a line, if it has one. -/
def entryOf (lines : List (List Char)) (line : Line) : Option (Option Entry) :=
  (content line.text).map fun
    | .nothing => none
    | .pair key value => some
      { key := String.ofList key
        text := String.ofList value
        place := .position line.number (column lines line.number) }

/-- The text without a byte order mark at its start. -/
def withoutMark (text : List Char) : List Char :=
  match text with
  | '\uFEFF' :: rest => rest
  | _ => text

/-- The entries of a properties text. -/
def entries (text : List Char) : Option (List Entry) :=
  ((logicalLines (withoutMark text)).mapM (entryOf (Text.lines text))).map fun found =>
    found.filterMap id

/-- The documents of a properties text: one, unless there is no entry. -/
def documents (text : String) : Option (List (List Entry)) :=
  (entries text.toList).map fun found => if found.isEmpty then [] else [found]

end LayeredConfig.Properties

namespace LayeredConfig

/-- The format of properties files. -/
def Format.properties : Format where
  name := "properties"
  extensions := ["properties"]
  body := .parsed Properties.documents

end LayeredConfig
