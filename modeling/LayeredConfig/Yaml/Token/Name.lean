import LayeredConfig.Text
import LayeredConfig.Yaml.Token

/-!
# Anchors, tags and directives

What stands before a node or a document: the name that aliases refer to, the tag, the version of
the language, and the handles that shorten tags.

## Main definitions

* `Yaml.name`, `Yaml.tag`, `Yaml.directive`.
-/

namespace LayeredConfig.Yaml

/-- Takes the name of an anchor or an alias after its sign. -/
def name (here : Cursor) : Option (List Char × Cursor) :=
  let (found, next) := here.takeWhile isNameChar
  let isEnd := atGap next.rest || next.rest.head?.any fun c => "?:,]\x7d%@`".toList.contains c
  if found.isEmpty ∨ !isEnd then none else some (found, next)

/-! ### Tags -/

/-- The characters of tags. -/
def isTagChar (c : Char) : Bool :=
  isNameChar c || ";/?:@&=+$.%!~*'()".toList.contains c

/-- The characters of tags that are written out in full. -/
def isFullTagChar (c : Char) : Bool :=
  isTagChar c || c = ',' || c = '[' || c = ']'

/-- How many bytes a character has that begins with a given byte. -/
def byteCount (first : Nat) : Nat :=
  if first < 0x80 then 1
  else if first < 0xC0 then 0
  else if first < 0xE0 then 2
  else if first < 0xF0 then 3
  else if first < 0xF8 then 4
  else 0

/-- Takes a byte that is written as a percent sign and two digits. -/
def escapedByte : Text.Reader Nat
  | '%' :: text => Text.hexNumber 2 text
  | _ => none

/-- Takes so many further bytes of a character. -/
def furtherBytes : Nat → Text.Reader (List UInt8)
  | 0 => fun text => some ([], text)
  | count + 1 => fun text => do
    let (byte, text) ← escapedByte text
    if byte < 0x80 ∨ 0xC0 ≤ byte then none
    else
      let (others, text) ← furtherBytes count text
      return (byte.toUInt8 :: others, text)

/-- Takes a character that is written as bytes. -/
def escapedChar : Text.Reader (List UInt8) := fun text => do
  let (first, text) ← escapedByte text
  match byteCount first with
  | 0 => none
  | count + 1 =>
    let (others, text) ← furtherBytes count text
    return (first.toUInt8 :: others, text)

/-- The bytes of the characters of a tag of which the bytes `done` are read, the last one first.
`limit` bounds the number of the others. -/
def tagBytes : Nat → List UInt8 → List Char → Option (List UInt8)
  | 0, _, _ => none
  | _, done, [] => some done.reverse
  | limit + 1, done, c :: text =>
    if c = '%' then
      match escapedChar (c :: text) with
      | some (found, rest) => tagBytes limit (found.reverse ++ done) rest
      | none => none
    else tagBytes limit ((bytes (String.singleton c)).reverse ++ done) text

/-- Takes the characters of a tag. A byte of zero ends the tag early. -/
def tagText (isChar : Char → Bool) (here : Cursor) : Option (Tag × Cursor) := do
  let (found, next) := here.takeWhile isChar
  let tag ← tagBytes (found.length + 1) [] found
  return (tag.takeWhile (· != 0), next)

/-- The handle at the start of a text: exclamation marks around a name, or one alone. -/
def handleOf (text : List Char) : List Char :=
  match text with
  | '!' :: rest =>
    let name := rest.takeWhile isNameChar
    if (rest.drop name.length).head? = some '!' then '!' :: name ++ ['!'] else ['!']
  | _ => []

/-- Takes a tag as its handle and what follows it. The tag `!` and those in angle brackets have
no handle. -/
def tag (here : Cursor) : Option ((List Char × Tag) × Cursor) :=
  match here.rest with
  | '!' :: '<' :: _ => do
    let (found, next) ← tagText isFullTagChar (here.skip 2)
    if next.column = here.column + 2 ∨ next.rest.head? ≠ some '>' then none
    else some (([], found), next.skip 1)
  | text => do
    let handle := handleOf text
    let (found, next) ← tagText isTagChar (here.skip handle.length)
    if handle.length > 1 ∧ next.column = here.column + handle.length then none
    else if handle.length = 1 ∧ found.isEmpty then some (([], bytes "!"), next)
    else some ((handle, found), next)

/-! ### Directives -/

/-- Takes a number of at most nine digits. -/
def versionNumber (here : Cursor) : Option (Nat × Cursor) :=
  let (digits, next) := here.takeWhile Char.isDigit
  if digits.isEmpty ∨ digits.length > 9 then none
  else some (Nat.ofDigitChars 10 digits 0, next)

/-- Takes the version of the language. -/
def version (here : Cursor) : Option (Token × Cursor) := do
  let (major, next) ← versionNumber (here.skipWhile isBlank)
  if next.rest.head? ≠ some '.' then none
  else
    let (minor, next) ← versionNumber (next.skip 1)
    return (.version major minor, next)

/-- Takes a handle and what it stands for. -/
def handle (here : Cursor) : Option (Token × Cursor) := do
  let here := here.skipWhile isBlank
  let handle := handleOf here.rest
  let afterHandle := here.skip handle.length
  let atStart := afterHandle.skipWhile isBlank
  if handle.isEmpty ∨ atStart.column = afterHandle.column then none
  else
    let (start, next) ← tagText isFullTagChar atStart
    if next.column = atStart.column ∨ !atGap next.rest then none
    else some (.handle handle start, next)

/-- Takes a directive after its percent sign, with the rest of the line. -/
def directive (here : Cursor) : Option (Token × Cursor) := do
  let (name, next) := here.takeWhile isNameChar
  if !atGap next.rest then none
  else
    let (token, next) ←
      if name = "YAML".toList then version next
      else if name = "TAG".toList then handle next
      else none
    return (token, ← next.finishLine?)

end LayeredConfig.Yaml
