import LayeredConfig.Source
import LayeredConfig.Text
import LayeredConfig.Tree

/-!
# Reading JSON

A reader takes a value off the front of a text and gives back what follows it. Objects keep
the order in which their keys first appear; a key that appears again replaces the value. Lists
and objects may be nested 127 deep.

A number without fraction and exponent is an integer as long as it fits 64 bits. Any other
number is read through the longest run of its digits that fits 64 bits without a sign, which is
rounded and then scaled by a rounded power of ten.

## Main definitions

* `Json.value`, `Json.read`.
-/

namespace LayeredConfig.Json

open Text (Reader)

/-- The characters that may stand between the words. -/
def isSpace (c : Char) : Bool :=
  c = ' ' || c = '\n' || c = '\t' || c = '\r'

/-- A text without the space at its start. -/
def skipSpace (text : List Char) : List Char :=
  text.dropWhile isSpace

/-! ### Numbers -/

/-- The greatest integer of 64 bits without a sign. -/
def maxUnsigned : Nat := UInt64.size - 1

/-- A number as it is read: its significand and power of ten, and whether it has been cut off
because a further digit would not fit. -/
structure Digits where
  significand : Nat
  exponent : Int := 0
  isCut : Bool := false

namespace Digits

/-- Takes one more digit before the point. A digit that does not fit counts as a power of
ten, and so do all that follow it. -/
def whole (d : Digits) (c : Char) : Digits :=
  let next := d.significand * 10 + Text.digitValue c
  if d.isCut ∨ next > maxUnsigned then { d with exponent := d.exponent + 1, isCut := true }
  else { d with significand := next }

/-- Takes one more digit after the point. A digit that does not fit is dropped, and so are all
that follow it. -/
def fraction (d : Digits) (c : Char) : Digits :=
  let next := d.significand * 10 + Text.digitValue c
  if d.isCut ∨ next > maxUnsigned then { d with isCut := true }
  else { d with significand := next, exponent := d.exponent - 1 }

end Digits

/-- The greatest exponent that is read as written. -/
def maxExponent : Int := Int32.maxValue.toInt

/-- The number `10 ^ power` for a power of at most 308. -/
def tenTo (power : Nat) : Option Binary64 := Binary64.ofDecimal? false 1 power

/-- A number scaled by a power of ten, in one rounded step within the range of the format and
in steps of `10 ^ 308` below it. -/
def scaled (x : Binary64) (exponent : Int) : Option Binary64 :=
  let power := exponent.natAbs
  if power ≤ 308 then do
    let ten ← tenTo power
    if 0 ≤ exponent then x.mul? ten else x.div? ten
  else if x.isZero then some x
  else if 0 ≤ exponent then none
  else do
    let ten ← tenTo 308
    let smaller ← x.div? ten
    scaled smaller (exponent + 308)
termination_by exponent.natAbs
decreasing_by omega

/-- The binary number of digits with a sign. -/
def real (negative : Bool) (digits : Digits) : Option Binary64 := do
  let x ← Binary64.ofDecimal? false digits.significand 0
  let y ← scaled x digits.exponent
  return { y with negative }

/-- Reads the exponent after its mark. The second result is none when the exponent is so
great that only its sign counts. -/
def exponentPart : Reader (Bool × Option Int) := fun text =>
  let (negative, text) :=
    match text with
    | '+' :: text => (false, text)
    | '-' :: text => (true, text)
    | _ => (false, text)
  let digits := text.takeWhile Char.isDigit
  if digits.isEmpty then none
  else
    let value : Int := Nat.ofDigitChars 10 digits 0
    let exponent := if value > maxExponent then none else some (if negative then -value else value)
    some ((negative, exponent), text.dropWhile Char.isDigit)

/-- Finishes a number that may still have an exponent. -/
def withExponent (negative : Bool) (digits : Digits) : Reader Tree := fun text =>
  match text with
  | c :: rest =>
    if c = 'e' ∨ c = 'E' then do
      let ((below, exponent), rest) ← exponentPart rest
      match exponent with
      | some exponent =>
        let x ← real negative { digits with exponent := digits.exponent + exponent }
        return (.real x, rest)
      | none =>
        if digits.significand = 0 ∨ below then return (.real (.zero negative), rest) else none
    else do return (.real (← real negative digits), text)
  | [] => do return (.real (← real negative digits), [])

/-- The value of a number without fraction and exponent. -/
def integer (negative : Bool) (digits : Digits) : Option Tree :=
  if digits.isCut then (real negative digits).map .real
  else if negative then
    let value : Int := -digits.significand
    if value = 0 ∨ value < Int64.minValue.toInt then (real true digits).map .real
    else some (.int value)
  else some (.int digits.significand)

/-- Reads a number after its sign. -/
def number (negative : Bool) : Reader Tree := fun text =>
  let whole := text.takeWhile Char.isDigit
  let rest := text.dropWhile Char.isDigit
  if whole.isEmpty ∨ (whole.length > 1 ∧ whole.head? = some '0') then none
  else
    let digits := whole.foldl Digits.whole { significand := 0 }
    match rest with
    | '.' :: rest =>
      let fraction := rest.takeWhile Char.isDigit
      if fraction.isEmpty then none
      else
        let digits := fraction.foldl Digits.fraction { digits with isCut := false }
        withExponent negative digits (rest.dropWhile Char.isDigit)
    | c :: _ =>
      if c = 'e' ∨ c = 'E' then withExponent negative digits rest
      else (integer negative digits).map (·, rest)
    | [] => (integer negative digits).map (·, [])

/-! ### Strings -/

/-- The character that a letter stands for after a backslash. -/
def shortEscape? : Char → Option Char
  | '"' => some '"'
  | '\\' => some '\\'
  | '/' => some '/'
  | 'b' => some '\x08'
  | 'f' => some '\x0c'
  | 'n' => some '\n'
  | 'r' => some '\r'
  | 't' => some '\t'
  | _ => none

/-- Reads what follows `\u`: one character, for which two such escapes are needed beyond the
basic plane. -/
def unicodeEscape : Reader Char := fun text => do
  let (unit, rest) ← Text.hexNumber 4 text
  if 0xDC00 ≤ unit ∧ unit ≤ 0xDFFF then none
  else if 0xD800 ≤ unit ∧ unit ≤ 0xDBFF then
    match rest with
    | '\\' :: 'u' :: rest =>
      let (low, rest) ← Text.hexNumber 4 rest
      if 0xDC00 ≤ low ∧ low ≤ 0xDFFF then
        return (Char.ofNat (0x10000 + (unit - 0xD800) * 0x400 + (low - 0xDC00)), rest)
      else none
    | _ => none
  else return (Char.ofNat unit, rest)

/-- Reads the character that an escape stands for, after its backslash. -/
def escape : Reader Char
  | 'u' :: text => unicodeEscape text
  | c :: text => (shortEscape? c).map (·, text)
  | [] => none

/-- Reads the rest of a string of which the characters `done` are read, the last one first.
`limit` bounds the number of the others. -/
def stringBody : Nat → List Char → Reader (List Char)
  | 0, _, _ => none
  | _, _, [] => none
  | limit + 1, done, c :: text =>
    if c = '"' then some (done.reverse, text)
    else if c = '\\' then
      match escape text with
      | some (d, text) => stringBody limit (d :: done) text
      | none => none
    else if c.toNat < 0x20 then none
    else stringBody limit (c :: done) text

/-- Reads a string after its opening quote. -/
def string : Reader String := fun text =>
  (stringBody (text.length + 1) [] text).map fun (chars, rest) => (String.ofList chars, rest)

/-! ### Values -/

/-- Reads the rest of a list of which the opening bracket and perhaps some items are read.
`limit` bounds the number of the items. -/
def items (item : Reader Tree) : Nat → Reader (List Tree)
  | 0 => fun _ => none
  | limit + 1 => fun text => do
    let (first, text) ← item (skipSpace text)
    match skipSpace text with
    | ',' :: text =>
      let (others, text) ← items item limit text
      return (first :: others, text)
    | ']' :: text => return ([first], text)
    | _ => none

/-- Reads the rest of an object of which the opening brace and perhaps some fields are read.
`limit` bounds the number of the fields. -/
def fields (item : Reader Tree) : Nat → Reader (List (String × Tree))
  | 0 => fun _ => none
  | limit + 1 => fun text => do
    match skipSpace text with
    | '"' :: text =>
      let (key, text) ← string text
      match skipSpace text with
      | ':' :: text =>
        let (value, text) ← item (skipSpace text)
        match skipSpace text with
        | ',' :: text =>
          let (others, text) ← fields item limit text
          return ((key, value) :: others, text)
        | '}' :: text => return ([(key, value)], text)
        | _ => none
      | _ => none
    | _ => none

/-- Reads a word that stands for a value. -/
def word (letters : List Char) (value : Tree) : Reader Tree := fun text =>
  (Text.afterStart? letters text).map (value, ·)

/-- Reads a list or an object after its opening bracket; the items are read by `item`. -/
def container (isList : Bool) (item : Reader Tree) : Reader Tree := fun text =>
  match isList, skipSpace text with
  | true, ']' :: rest => some (.list [], rest)
  | true, _ => (items item text.length text).map fun (found, rest) => (.list found, rest)
  | false, '}' :: rest => some (.table [], rest)
  | false, _ =>
    (fields item text.length text).map fun (found, rest) => (.table (Pairs.ofList found), rest)

/-- Reads a value in which lists and objects are nested up to `depth` deep. -/
def value : Nat → Reader Tree := fun depth text =>
  match text with
  | 'n' :: _ => word ['n', 'u', 'l', 'l'] .null text
  | 't' :: _ => word ['t', 'r', 'u', 'e'] (.flag true) text
  | 'f' :: _ => word ['f', 'a', 'l', 's', 'e'] (.flag false) text
  | '"' :: text => (string text).map fun (found, rest) => (.text found, rest)
  | '-' :: text => number true text
  | c :: rest =>
    if c = '[' ∨ c = '{' then
      match depth with
      | 0 => none
      | depth + 1 => container (c = '[') (value depth) rest
    else number false text
  | [] => none

/-- How deep lists and objects may be nested. -/
def maxDepth : Nat := 127

/-- The value of a text, which holds nothing else. -/
def read (text : String) : Option Tree := do
  let (found, rest) ← value maxDepth (skipSpace text.toList)
  if (skipSpace rest).isEmpty then some found else none

end LayeredConfig.Json
