import LayeredConfig.Yaml.Token
import LayeredConfig.Yaml.Scalar

/-!
# How texts are written in YAML

A text is written plain where it is read back as the same text. Otherwise it stands in single
quotes, or in double quotes where it holds what needs an escape. A text with line feeds is written
in lines of its own.

## Main definitions

* `Yaml.Style`, `Yaml.Style.ofText`.
* `Yaml.styled`: a text as it is written.
-/

namespace LayeredConfig.Yaml

/-- A way to write a text. -/
inductive Style
  | plain
  | single
  | double
  /-- In lines of its own. -/
  | literal
  deriving DecidableEq, Repr

namespace Style

/-- A character can be written as it is. -/
def isWritable (c : Char) : Bool :=
  let n := c.toNat
  c = '\n' || (0x20 ≤ n && n ≤ 0x7E) || (0xA0 ≤ n && n ≤ 0xFFFD && n != 0xFEFF) || 0x10000 ≤ n

/-- Two characters stand next to each other of which the first and the second satisfy a
condition. -/
def hasPair (p q : Char → Bool) (text : List Char) : Bool :=
  (text.zip text.tail).any fun (a, b) => p a && q b

/-- The character is a space. -/
def isSpace (c : Char) : Bool := c = ' '

/-- The characters with which no plain text may begin. -/
def isLeadingSign (c : Char) : Bool :=
  "#,[]\x7b\x7d&*!|>'\"%@`".toList.contains c

/-- The text begins like something else than a plain text. -/
def beginsOtherwise (text : List Char) : Bool :=
  let mark := text.take 3
  mark = ['-', '-', '-'] || mark = ['.', '.', '.'] ||
    match text with
    | [] => false
    | c :: rest => isLeadingSign c || ((c = '?' || c = '-' || c = ':') && atGap rest)

/-- Somewhere after the start of the text a plain text would end: at a colon before a gap, or at a
comment. -/
def endsEarly : List Char → Bool
  | [] => false
  | c :: rest =>
    (rest.head? = some ':' && atGap rest.tail) ||
      ((isBlank c || isBreak c) && rest.head? = some '#') || endsEarly rest

/-- The text begins or ends with a space or a line end. -/
def isPadded (text : List Char) : Bool :=
  let isPad (c : Char) := isSpace c || isBreak c
  text.head?.any isPad || text.getLast?.any isPad

/-- Single quotes can hold the text. -/
def fitsSingle (text : List Char) : Bool :=
  text.all isWritable && !hasPair isBreak isSpace text && !hasPair isSpace isBreak text

/-- A plain text can be the text. -/
def fitsPlain (text : List Char) : Bool :=
  fitsSingle text && !text.any isBreak && !isPadded text && !beginsOtherwise text &&
    !endsEarly text

/-- Lines of its own can hold the text. -/
def fitsLiteral (text : List Char) : Bool :=
  text.all isWritable && !hasPair isSpace isBreak text && !text.getLast?.any isSpace

/-- The text begins with a digit, perhaps after a sign or a point. -/
def beginsWithDigit (text : List Char) : Bool :=
  match text with
  | c :: rest =>
    c.isDigit || ((c = '-' || c = '.' || c = '+') && rest.head?.any Char.isDigit)
  | [] => false

/-- A plain text could be taken for something else than the text: for a value of another type, or
for a truth value, null or a number in another spelling. -/
def isAmbiguous (text : String) : Bool :=
  match Scalar.ofPlain? text with
  | some (.text _) =>
    let lower := String.ofList (text.toList.map Char.toLower)
    (Scalar.flag? lower).isSome || Scalar.isNullWord lower || beginsWithDigit text.toList
  | _ => true

/-- The style of a text. -/
def ofText (text : String) : Style :=
  let chars := text.toList
  if chars.contains '\n' then if fitsLiteral chars then literal else double
  else if !isAmbiguous text && fitsPlain chars then plain
  else if fitsSingle chars then single
  else double

end Style

/-! ### Writing -/

/-- So many spaces. -/
def spaces (count : Nat) : List Char := List.replicate count ' '

/-- The letter that stands for a character after a backslash. -/
def escapeLetter? (c : Char) : Option Char :=
  if c = '\x00' then some '0'
  else if c = '\x07' then some 'a'
  else if c = '\x08' then some 'b'
  else if c = '\t' then some 't'
  else if c = '\n' then some 'n'
  else if c = '\x0b' then some 'v'
  else if c = '\x0c' then some 'f'
  else if c = '\r' then some 'r'
  else if c = '\x1b' then some 'e'
  else if c = '"' then some '"'
  else if c = '\\' then some '\\'
  else if c = '\x85' then some 'N'
  else if c = '\xa0' then some '_'
  else if c = '\u2028' then some 'L'
  else if c = '\u2029' then some 'P'
  else none

/-- A number in so many hexadecimal digits. -/
def hexDigits (count number : Nat) : List Char :=
  let digits := (Nat.toDigits 16 number).map Char.toUpper
  List.replicate (count - digits.length) '0' ++ digits

/-- A character by its letter or its number. -/
def escapedForm (c : Char) : List Char :=
  let n := c.toNat
  match escapeLetter? c with
  | some letter => ['\\', letter]
  | none =>
    if n ≤ 0xFF then '\\' :: 'x' :: hexDigits 2 n
    else if n ≤ 0xFFFF then '\\' :: 'u' :: hexDigits 4 n
    else '\\' :: 'U' :: hexDigits 8 n

/-- A character as it stands in double quotes. -/
def inDouble (c : Char) : List Char :=
  if !Style.isWritable c || isBreak c || c = '"' || c = '\\' then escapedForm c else [c]

/-- A text as it stands in single quotes: a quote is written twice, and a new line begins in the
given column. -/
def inSingle (column : Nat) (isNewLine : Bool) : List Char → List Char
  | [] => if isNewLine then spaces column else []
  | c :: rest =>
    if isBreak c then c :: inSingle column true rest
    else
      (if isNewLine then spaces column else []) ++
        ((if c = '\'' then ['\'', '\''] else [c]) ++ inSingle column false rest)

/-- The lines of a text, each of which begins in the given column unless it is empty. -/
def inLines (column : Nat) (isNewLine : Bool) : List Char → List Char
  | [] => []
  | c :: rest =>
    if isBreak c then c :: inLines column true rest
    else (if isNewLine then spaces column else []) ++ c :: inLines column false rest

/-- The signs in the header of a text in lines: the depth of the indentation where the text itself
begins with a space or a line end, and what becomes of the line ends at its end. -/
def literalSigns (text : List Char) : List Char :=
  let isPad := text.head?.any fun c => c = ' ' || isBreak c
  let chomping :=
    match text.reverse with
    | [] => ['-']
    | [c] => if isBreak c then ['+'] else ['-']
    | c :: d :: _ => if !isBreak c then ['-'] else if isBreak d then ['+'] else []
  (if isPad then ['2'] else []) ++ chomping

/-- A text as it is written, where further lines of it begin in the given column. -/
def styled (column : Nat) (text : String) : List Char :=
  let chars := text.toList
  match Style.ofText text with
  | .plain => chars
  | .single => '\'' :: inSingle column false chars ++ ['\'']
  | .double => '"' :: chars.flatMap inDouble ++ ['"']
  | .literal => '|' :: literalSigns chars ++ '\n' :: inLines column true chars

end LayeredConfig.Yaml
