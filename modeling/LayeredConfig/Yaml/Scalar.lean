import LayeredConfig.Decimal.Binary64
import LayeredConfig.Text
import LayeredConfig.Yaml.Token

/-!
# The types of plain scalars

A plain scalar without a tag is null, a truth value, an integer, a real number or a text, by the
way it is written.

## Main definitions

* `Yaml.Scalar`, `Yaml.Scalar.ofPlain?`, `Yaml.Scalar.ofTagged?`.
-/

namespace LayeredConfig.Yaml

/-- The value of a scalar. -/
inductive Scalar
  | null
  | flag (value : Bool)
  | int (value : Int)
  | real (value : Binary64)
  | infinite (negative : Bool)
  | undefined
  | text (value : String)
  deriving DecidableEq, Repr

namespace Scalar

/-- The words for null. -/
def isNullWord (text : String) : Bool := ["null", "Null", "NULL", "~"].contains text

/-- The truth value of a word. -/
def flag? (text : String) : Option Bool :=
  if ["true", "True", "TRUE"].contains text then some true
  else if ["false", "False", "FALSE"].contains text then some false
  else none

/-- A sign with what follows it: true for a minus. -/
def cutSign (text : List Char) : Option Bool × List Char :=
  match text with
  | '-' :: rest => (some true, rest)
  | '+' :: rest => (some false, rest)
  | _ => (none, text)

/-- Digits that do not make a number, because more than one of them stand after a zero. -/
def isPadded (text : List Char) : Bool :=
  match (cutSign text).2 with
  | '0' :: digits => !digits.isEmpty && digits.all Char.isDigit
  | _ => false

/-! ### Integers -/

/-- The number that digits of a base stand for, of which there is at least one. -/
def natural? (base : Nat) (digits : List Char) : Option Nat :=
  if digits.isEmpty then none else Text.number? base digits

/-- The integer that a text stands for, in decimal or after the mark of another base. -/
def integer? (text : List Char) : Option Int := do
  let (sign, digits) := cutSign text
  let size ←
    match digits with
    | '0' :: 'x' :: digits => natural? 16 digits
    | '0' :: 'o' :: digits => natural? 8 digits
    | '0' :: 'b' :: digits => natural? 2 digits
    | _ => if isPadded text then none else natural? 10 digits
  return if sign = some true then -size else size

/-- An integer fits 64 bits, with or without a sign. -/
def isWord (value : Int) : Bool := Int64.minValue.toInt ≤ value && value < UInt64.size

/-- An integer fits 128 bits, with or without a sign. -/
def isDoubleWord (value : Int) : Bool :=
  let bound : Int := Nat.pow 2 127
  value < 2 * bound && -bound ≤ value

/-! ### Real numbers -/

/-- The value of decimal digits. -/
def decimal (digits : List Char) : Nat := Nat.ofDigitChars 10 digits 0

/-- The exponent at the end of a real number, which may be missing. -/
def exponent? : List Char → Option Int
  | [] => some 0
  | c :: rest =>
    if c = 'e' ∨ c = 'E' then
      let (sign, digits) := cutSign rest
      if digits.isEmpty ∨ !digits.all Char.isDigit then none
      else some (if sign = some true then -decimal digits else decimal digits)
    else none

/-- The finite number that a decimal stands for: digits with perhaps a point among or beside
them, and perhaps an exponent. -/
def decimal? (text : List Char) : Option Binary64 := do
  let (sign, digits) := cutSign text
  let whole := digits.takeWhile Char.isDigit
  let (fraction, rest) :=
    match digits.dropWhile Char.isDigit with
    | '.' :: rest => (rest.takeWhile Char.isDigit, rest.dropWhile Char.isDigit)
    | rest => ([], rest)
  if whole.isEmpty ∧ fraction.isEmpty then none
  else
    let exponent ← exponent? rest
    Binary64.ofDecimal? (sign = some true) (decimal (whole ++ fraction))
      (exponent - fraction.length)

/-- The words for what is greater than all numbers. -/
def infiniteWords : List String := [".inf", ".Inf", ".INF"]

/-- The words for what is no number. -/
def undefinedWords : List String := [".nan", ".NaN", ".NAN"]

/-- The real number that a text stands for. -/
def real? (text : List Char) : Option Scalar :=
  let (sign, word) := cutSign text
  if infiniteWords.contains (String.ofList word) then some (infinite (sign = some true))
  else if undefinedWords.contains (String.ofList text) then some undefined
  else (decimal? text).map real

/-! ### Scalars -/

/-- The value of a plain scalar. An integer that fits 128 but not 64 bits is refused. -/
def ofPlain? (text : String) : Option Scalar :=
  let chars := text.toList
  if text = "" ∨ isNullWord text then some null
  else
    match flag? text, integer? chars with
    | some value, _ => some (flag value)
    | none, some value =>
      if isWord value then some (int value)
      else if isDoubleWord value then none
      else some ((real? chars).getD (.text text))
    | none, none =>
      some ((if isPadded chars then none else real? chars).getD (.text text))

/-- The tag of the core language with the given name. -/
def coreTag (name : String) : Tag := bytes ("tag:yaml.org,2002:" ++ name)

/-- The value of a scalar with a tag that is not local. Tags of the core language demand a value
of their type; with any other tag the value is a text. -/
def ofTagged? (tag : Tag) (text : String) : Option Scalar :=
  let chars := text.toList
  if tag = coreTag "bool" then (flag? text).map flag
  else if tag = coreTag "int" then
    (integer? chars).bind fun value => if isWord value then some (int value) else none
  else if tag = coreTag "float" then real? chars
  else if tag = coreTag "null" then if isNullWord text then some null else none
  else some (.text text)

/-- The value of a scalar that has the given tag or none. A local tag does not count. -/
def ofNode? (tag : Option Tag) (text : String) (isPlain : Bool) : Option Scalar :=
  match tag with
  | none => if isPlain then ofPlain? text else some (.text text)
  | some tag =>
    if tag.head? = some '!'.toUInt8 ∧ isPlain then ofPlain? text else ofTagged? tag text

end Scalar

end LayeredConfig.Yaml
