import LayeredConfig.Text
import LayeredConfig.Toml.Item

/-!
# TOML scalars

## Main definitions

* `Toml.string`, `Toml.quotedKey`: texts in quotes.
* `Toml.number`: integers and real numbers.
* `Toml.stamp`: dates and times.
-/

namespace LayeredConfig.Toml

open Text (Reader)

/-! ### Characters -/

/-- The blanks inside a line. -/
def isSpace (c : Char) : Bool := c = ' ' || c = '\t'

/-- A text without the blanks at its start. -/
def skipSpace (text : List Char) : List Char := text.dropWhile isSpace

/-- The characters that may stand in comments and quotes: all but controls other than tab. -/
def isPrintable (c : Char) : Bool :=
  c = '\t' || (0x20 ≤ c.toNat && c.toNat != 0x7F)

/-- Takes a line end. -/
def newline : Reader Unit
  | '\n' :: text => some ((), text)
  | '\r' :: '\n' :: text => some ((), text)
  | _ => none

/-! ### Texts in quotes -/

/-- The character that a letter stands for after a backslash. -/
def shortEscape? : Char → Option Char
  | 'b' => some '\x08'
  | 't' => some '\t'
  | 'n' => some '\n'
  | 'f' => some '\x0c'
  | 'r' => some '\r'
  | '"' => some '"'
  | '\\' => some '\\'
  | _ => none

/-- Takes a character given by its number in so many hexadecimal digits. -/
def numbered (count : Nat) : Reader Char := fun text => do
  let (number, rest) ← Text.hexNumber count text
  let c ← Text.charOf? number
  return (c, rest)

/-- Takes what follows the backslash of an escape. -/
def escape : Reader Char
  | 'u' :: text => numbered 4 text
  | 'U' :: text => numbered 8 text
  | c :: text => (shortEscape? c).map (·, text)
  | [] => none

/-- Drops the line end after a backslash, with the blanks before it and all blanks and line
ends after it. -/
def skipBreak (text : List Char) : Option (List Char) := do
  let ((), rest) ← newline (skipSpace text)
  return skipBlankLines rest.length rest
where
  /-- Drops blanks and line ends. -/
  skipBlankLines : Nat → List Char → List Char
    | 0, text => text
    | steps + 1, text =>
      match newline (skipSpace text) with
      | some ((), rest) => skipBlankLines steps rest
      | none => skipSpace text

/-- Takes the rest of a text in double quotes on one line, of which the characters `done` are
taken, the last one first. `limit` bounds the number of the others. -/
def basicBody : Nat → List Char → Reader (List Char)
  | 0, _, _ => none
  | _, _, [] => none
  | limit + 1, done, c :: text =>
    if c = '"' then some (done.reverse, text)
    else if c = '\\' then
      match escape text with
      | some (d, text) => basicBody limit (d :: done) text
      | none => none
    else if isPrintable c then basicBody limit (c :: done) text
    else none

/-- Takes the rest of a text in single quotes on one line. -/
def literalBody : Reader (List Char) := fun text =>
  let found := text.takeWhile fun c => c != '\'' && isPrintable c
  match text.dropWhile fun c => c != '\'' && isPrintable c with
  | '\'' :: rest => some (found, rest)
  | _ => none

/-- Takes the closing quotes of a text on several lines, up to two of which belong to the text:
gives the number of those. -/
def closing (quote : Char) : Reader Nat := fun text =>
  let quotes := (text.takeWhile (· == quote)).length
  if quotes < 3 then none
  else
    let inside := min (quotes - 3) 2
    some (inside, text.drop (inside + 3))

/-- Takes the rest of a text on several lines, of which the characters `done` are taken, the
last one first. `limit` bounds the number of the others. Escapes count in double quotes
only. -/
def longBody (quote : Char) : Nat → List Char → Reader (List Char)
  | 0, _, _ => none
  | _, _, [] => none
  | limit + 1, done, c :: text =>
    if c = quote then
      match closing quote (c :: text) with
      | some (inside, rest) => some (done.reverse ++ List.replicate inside quote, rest)
      | none => longBody quote limit (c :: done) text
    else if c = '\\' ∧ quote = '"' then
      match skipBreak text with
      | some text => longBody quote limit done text
      | none =>
        match escape text with
        | some (d, text) => longBody quote limit (d :: done) text
        | none => none
    else
      match newline (c :: text) with
      | some ((), text) => longBody quote limit ('\n' :: done) text
      | none => if isPrintable c then longBody quote limit (c :: done) text else none

/-- Takes a text on several lines after its opening quotes; a line end right after them does
not count. -/
def long (quote : Char) : Reader (List Char) := fun text =>
  let body :=
    match newline text with
    | some ((), rest) => rest
    | none => text
  longBody quote (body.length + 1) [] body

/-- Takes a text in quotes on one line. -/
def quotedKey : Reader String := fun text =>
  let found :=
    match text with
    | '"' :: text => basicBody (text.length + 1) [] text
    | '\'' :: text => literalBody text
    | _ => none
  found.map fun (chars, rest) => (String.ofList chars, rest)

/-- Takes a text in quotes. -/
def string : Reader String := fun text =>
  match text with
  | '"' :: '"' :: '"' :: rest => (long '"' rest).map fun (cs, rest) => (String.ofList cs, rest)
  | '\'' :: '\'' :: '\'' :: rest =>
    (long '\'' rest).map fun (cs, rest) => (String.ofList cs, rest)
  | _ => quotedKey text

/-! ### Numbers -/

/-- Takes digits of a base, among which an underscore may stand between two of them. -/
def digitRun (isDigit : Char → Bool) : Reader (List Char) := fun text =>
  let run := text.takeWhile fun c => isDigit c || c = '_'
  let rest := text.dropWhile fun c => isDigit c || c = '_'
  let groups := run.splitOn '_'
  if groups.any List.isEmpty then none else some (groups.flatten, rest)

/-- Takes an optional sign: true for a minus. -/
def sign : List Char → Bool × List Char
  | '-' :: text => (true, text)
  | '+' :: text => (false, text)
  | text => (false, text)

/-- Takes decimal digits, of which the first is zero only if it is the last as well. -/
def wholeDigits : Reader (List Char)
  | '0' :: text => some (['0'], text)
  | text => digitRun Char.isDigit text

/-- The value of decimal digits. -/
def decimal (digits : List Char) : Nat := Nat.ofDigitChars 10 digits 0

/-- An integer of 64 bits with its sign. -/
def ofInteger (value : Int) : Option Item :=
  if Int64.minValue.toInt ≤ value ∧ value ≤ Int64.maxValue.toInt then some (.int value) else none

/-- Takes an integer with the given base after its mark. -/
def based (base : Nat) : Reader Item := fun text => do
  let isDigit (c : Char) := (Text.hexValue? c).any (· < base)
  let (digits, rest) ← digitRun isDigit text
  let value ← Text.number? base digits
  let item ← ofInteger value
  return (item, rest)

/-- Takes the fraction of a real number, if there is one. -/
def fraction (text : List Char) : Option (List Char × List Char) :=
  match text with
  | '.' :: rest => digitRun Char.isDigit rest
  | _ => some ([], text)

/-- Takes the exponent of a real number, if there is one. -/
def exponent (text : List Char) : Option (Int × List Char) :=
  match text with
  | c :: rest =>
    if c = 'e' ∨ c = 'E' then do
      let (negative, rest) := sign rest
      let (digits, rest) ← digitRun Char.isDigit rest
      let value : Int := decimal digits
      return (if negative then -value else value, rest)
    else some (0, text)
  | [] => some (0, text)

/-- The real number of digits with a sign. A positive number beyond the range is refused. -/
def ofReal (negative : Bool) (digits : Nat) (power : Int) : Option Item :=
  match Binary64.ofDecimal? negative digits power with
  | some x => some (.real (.finite x))
  | none => if negative then some (.real (.infinite true)) else none

/-- Takes a real number that is not finite after its sign. -/
def special (negative : Bool) (text : List Char) : Option (Item × List Char) :=
  match text with
  | 'i' :: 'n' :: 'f' :: rest => some (.real (.infinite negative), rest)
  | 'n' :: 'a' :: 'n' :: rest => some (.real .undefined, rest)
  | _ => none

/-- Takes an integer or a real number in decimal. -/
def decimalNumber : Reader Item := fun text => do
  let (negative, unsigned) := sign text
  match special negative unsigned with
  | some found => return found
  | none =>
    let (whole, rest) ← wholeDigits unsigned
    let (fraction, rest') ← fraction rest
    let (power, rest'') ← exponent rest'
    if rest''.length = rest.length then
      let value : Int := decimal whole
      let item ← ofInteger (if negative then -value else value)
      return (item, rest)
    else
      let item ← ofReal negative (decimal (whole ++ fraction)) (power - fraction.length)
      return (item, rest'')

/-- Takes a number. -/
def number : Reader Item
  | '0' :: 'x' :: text => based 16 text
  | '0' :: 'o' :: text => based 8 text
  | '0' :: 'b' :: text => based 2 text
  | text => decimalNumber text

/-! ### Dates and times -/

/-- Takes so many decimal digits, whose value lies within bounds. -/
def fixedDigits (count low high : Nat) : Reader Nat := fun text =>
  let digits := text.take count
  let value := decimal digits
  if digits.length = count ∧ digits.all Char.isDigit ∧ low ≤ value ∧ value ≤ high then
    some (value, text.drop count)
  else none

/-- Takes a given character. -/
def expect (c : Char) : Reader Unit
  | d :: text => if d = c then some ((), text) else none
  | [] => none

/-- The last day of a month. -/
def lastDay (year month : Nat) : Nat :=
  let isLeap := year % 4 = 0 ∧ (year % 100 ≠ 0 ∨ year % 400 = 0)
  if month = 2 then if isLeap then 29 else 28
  else if month = 4 ∨ month = 6 ∨ month = 9 ∨ month = 11 then 30
  else 31

/-- A number with leading zeros. -/
def padded (width n : Nat) : String :=
  let digits := Nat.toDigits 10 n
  String.ofList (List.replicate (width - digits.length) '0' ++ digits)

/-- Takes a date. -/
def date : Reader String := fun text => do
  let (year, text) ← fixedDigits 4 0 9999 text
  let ((), text) ← expect '-' text
  let (month, text) ← fixedDigits 2 1 12 text
  let ((), text) ← expect '-' text
  let (day, text) ← fixedDigits 2 1 (lastDay year month) text
  return (padded 4 year ++ "-" ++ padded 2 month ++ "-" ++ padded 2 day, text)

/-- Takes the fraction of a second, if there is one. Nine digits count, and zeros at the end do
not. -/
def secondFraction (text : List Char) : Option (String × List Char) :=
  match text with
  | '.' :: rest =>
    let digits := rest.takeWhile Char.isDigit
    let shown := ((digits.take 9).reverse.dropWhile (· == '0')).reverse
    if digits.isEmpty then none
    else
      let written := if shown.isEmpty then "" else "." ++ String.ofList shown
      some (written, rest.dropWhile Char.isDigit)
  | _ => some ("", text)

/-- Takes a time. -/
def time : Reader String := fun text => do
  let (hour, text) ← fixedDigits 2 0 23 text
  let ((), text) ← expect ':' text
  let (minute, text) ← fixedDigits 2 0 59 text
  let ((), text) ← expect ':' text
  let (second, text) ← fixedDigits 2 0 60 text
  let (fraction, text) ← secondFraction text
  return (padded 2 hour ++ ":" ++ padded 2 minute ++ ":" ++ padded 2 second ++ fraction, text)

/-- Takes the offset of a time, if there is one. -/
def offset (text : List Char) : Option (String × List Char) :=
  match text with
  | c :: rest =>
    if c = 'Z' ∨ c = 'z' then some ("Z", rest)
    else if c = '+' ∨ c = '-' then do
      let (hour, rest) ← fixedDigits 2 0 23 rest
      let ((), rest) ← expect ':' rest
      let (minute, rest) ← fixedDigits 2 0 59 rest
      let mark := if c = '-' ∧ (hour ≠ 0 ∨ minute ≠ 0) then "-" else "+"
      return (mark ++ padded 2 hour ++ ":" ++ padded 2 minute, rest)
    else some ("", text)
  | [] => some ("", text)

/-- The text goes on with two digits and the given character. -/
def startsTwo (c : Char) (text : List Char) : Bool :=
  (text.take 2).length = 2 && (text.take 2).all Char.isDigit && (text.drop 2).head? = some c

/-- Takes a date, a time, or both. The first result is none where the text begins with none of
them; it begins with one when four digits and a dash or two digits and a colon stand there. -/
def stamp (text : List Char) : Option (Option String × List Char) :=
  if (text.take 4).length = 4 ∧ (text.take 4).all Char.isDigit ∧ (text.drop 4).head? = some '-'
  then do
    let (day, rest) ← date text
    match rest with
    | c :: after =>
      if (c = 'T' ∨ c = 't' ∨ c = ' ') ∧ startsTwo ':' after then
        let (clock, rest) ← time after
        let (zone, rest) ← offset rest
        return (some (day ++ "T" ++ clock ++ zone), rest)
      else return (some day, rest)
    | [] => return (some day, rest)
  else if startsTwo ':' text then do
    let (clock, rest) ← time text
    return (some clock, rest)
  else some (none, text)

end LayeredConfig.Toml
