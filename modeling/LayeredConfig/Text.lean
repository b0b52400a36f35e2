/-!
# Texts

The blank characters are the twenty-five code points with the Unicode property `White_Space`.
Trimming removes them from the two ends of a text and nowhere else. Texts are cut at separators and
into lines. A reader takes something off the front of a text and gives back what follows it, or
refuses. A text that is shown in a message stands in double quotes, with a backslash before the
characters that would be mistaken, and with the number of every character that has no shape of its
own.

## Main definitions

* `Text.isBlank`, `Text.trim`: the blank characters, and a text without its blank ends.
* `Text.cutFirst`, `Text.cutLast`: the two sides of the first and of the last separator.
* `Text.contains`: one text occurs inside another.
* `Text.splitList`: the items of a comma-separated list, trimmed, the blank ones dropped.
* `Text.lines`: the lines of a text.
* `Text.Reader`, with `Text.number?` and `Text.hexNumber` for digits.
* `Text.quoted`, `Text.quotedPath`: a text and a path in quotes.
-/

namespace LayeredConfig.Text

/-! ### Blank characters -/

/-- The ranges of code points with the property `White_Space`, in ascending order. -/
def blankRanges : List (Nat × Nat) :=
  [(0x09, 0x0D), (0x20, 0x20), (0x85, 0x85), (0xA0, 0xA0), (0x1680, 0x1680), (0x2000, 0x200A),
    (0x2028, 0x2029), (0x202F, 0x202F), (0x205F, 0x205F), (0x3000, 0x3000)]

/-- A character is blank when it has the property `White_Space`. -/
def isBlank (c : Char) : Bool :=
  blankRanges.any fun (low, high) => low ≤ c.toNat && c.toNat ≤ high

/-- Removes the blank characters at the start. -/
def trimStart (text : List Char) : List Char :=
  text.dropWhile isBlank

/-- Removes the blank characters at the end. -/
def trimEnd (text : List Char) : List Char :=
  (text.reverse.dropWhile isBlank).reverse

/-- Removes the blank characters at both ends. -/
def trim (text : List Char) : List Char :=
  trimEnd (trimStart text)

/-- A text holds nothing but blank characters. -/
def isAllBlank (text : String) : Bool :=
  text.toList.all isBlank

/-- The text without its blank ends. -/
def trimmed (text : String) : String :=
  String.ofList (trim text.toList)

/-! ### Cutting -/

/-- The parts before and after the first `sep`. -/
def cutFirst (sep : Char) (text : List Char) : Option (List Char × List Char) :=
  match text.dropWhile (· != sep) with
  | [] => none
  | _ :: after => some (text.takeWhile (· != sep), after)

/-- The parts before and after the last `sep`. -/
def cutLast (sep : Char) (text : List Char) : Option (List Char × List Char) :=
  (cutFirst sep text.reverse).map fun (after, before) => (before.reverse, after.reverse)

/-- `part` occurs somewhere in `text`. -/
def contains (part : List Char) : List Char → Bool
  | [] => part.isEmpty
  | c :: text => part.isPrefixOf (c :: text) || contains part text

/-- What follows `start` in a text that begins with it. -/
def afterStart? : List Char → List Char → Option (List Char)
  | [], text => some text
  | _ :: _, [] => none
  | s :: start, c :: text => if s = c then afterStart? start text else none

/-- The items between commas, each trimmed, without the blank ones. -/
def splitList (text : String) : List String :=
  (((text.toList.splitOn ',').map trim).filter fun item => !item.isEmpty).map String.ofList

theorem length_lt_of_cutFirst {sep : Char} {text before after : List Char}
    (h : cutFirst sep text = some (before, after)) : after.length < text.length := by
  unfold cutFirst at h
  split at h
  · cases h
  · next c rest heq =>
    cases h
    have hle : (text.dropWhile (· != sep)).length ≤ text.length :=
      (List.dropWhile_sublist _).length_le
    rw [heq] at hle
    exact hle

/-- The lines of a text. A line ends with a line feed, or with a carriage return and a line
feed; a last line without an end counts when it is not empty. -/
def lines (text : List Char) : List (List Char) :=
  match _h : cutFirst '\n' text with
  | none => if text.isEmpty then [] else [text]
  | some (line, rest) =>
    (if line.getLast? = some '\r' then line.dropLast else line) :: lines rest
termination_by text.length
decreasing_by exact length_lt_of_cutFirst _h

/-! ### Readers -/

/-- Takes something off the front of a text. -/
abbrev Reader (α : Type) : Type := List Char → Option (α × List Char)

/-- The value of a decimal digit. -/
def digitValue (c : Char) : Nat := c.toNat - '0'.toNat

/-- The value of a hexadecimal digit. -/
def hexValue? (c : Char) : Option Nat :=
  if c.isDigit then some (digitValue c)
  else if 'a' ≤ c ∧ c ≤ 'f' then some (c.toNat - 'a'.toNat + 10)
  else if 'A' ≤ c ∧ c ≤ 'F' then some (c.toNat - 'A'.toNat + 10)
  else none

/-- The number that the digits of a base stand for. -/
def number? (base : Nat) (digits : List Char) : Option Nat :=
  digits.foldlM (fun number c => do
    let value ← hexValue? c
    if value < base then some (number * base + value) else none) 0

/-- The character with a number, unless the number is half of a pair or too great. -/
def charOf? (number : Nat) : Option Char :=
  if number < 0xD800 ∨ (0xDFFF < number ∧ number < 0x110000) then some (Char.ofNat number)
  else none

/-- Takes a given number of hexadecimal digits as one number. -/
def hexNumber (count : Nat) : Reader Nat := fun text =>
  let digits := text.take count
  if digits.length < count then none else (number? 16 digits).map (·, text.drop count)

/-! ### Quotes -/

/-- Ranges of code points that have no shape of their own: controls, formats, separators,
combining marks, private use and what is not assigned to a character. -/
def shapelessRanges : List (Nat × Nat) :=
  [(0x00, 0x1F), (0x7F, 0xA0), (0xAD, 0xAD), (0x300, 0x36F), (0x378, 0x379), (0x483, 0x489),
    (0x591, 0x5BD), (0x600, 0x605), (0x61C, 0x61C), (0x64B, 0x65F), (0x6DD, 0x6DD),
    (0x70F, 0x70F), (0x180E, 0x180F), (0x1680, 0x1680), (0x1AB0, 0x1ACE), (0x1DC0, 0x1DFF),
    (0x2000, 0x200F), (0x2028, 0x202F), (0x205F, 0x206F), (0x20D0, 0x20F0), (0x3000, 0x3000),
    (0x302A, 0x302F), (0x3099, 0x309A), (0xD800, 0xF8FF), (0xFE00, 0xFE0F), (0xFE20, 0xFE2F),
    (0xFEFF, 0xFEFF), (0xFFF0, 0xFFFB), (0xFFFE, 0xFFFF), (0xE0000, 0x10FFFF)]

/-- A character has no shape of its own. -/
def isShapeless (c : Char) : Bool :=
  shapelessRanges.any fun (low, high) => low ≤ c.toNat && c.toNat ≤ high

/-- A character by its number. -/
def numbered (c : Char) : List Char :=
  ['\\', 'u', '{'] ++ Nat.toDigits 16 c.toNat ++ ['}']

/-- A character as it stands in quotes; those in `marked` get a backslash. -/
def marked (marks : List Char) (c : Char) : List Char :=
  if c = '\\' ∨ c ∈ marks then ['\\', c]
  else if c = '\n' then ['\\', 'n']
  else if c = '\r' then ['\\', 'r']
  else if c = '\t' then ['\\', 't']
  else if c = '\x00' then ['\\', '0']
  else if isShapeless c then numbered c
  else [c]

/-- A text in quotes. -/
def quoted (text : String) : String :=
  String.ofList ('"' :: text.toList.flatMap (marked ['"']) ++ ['"'])

/-- A path in quotes. -/
def quotedPath (path : String) : String :=
  String.ofList ('"' :: path.toList.flatMap (marked ['"', '\'']) ++ ['"'])

end LayeredConfig.Text
