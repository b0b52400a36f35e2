import LayeredConfig.Yaml.Token.Block
import LayeredConfig.Yaml.Token.Name
import LayeredConfig.Yaml.Token.Quoted

/-!
# Reading the tokens of a YAML text

Outside of brackets the columns of the text decide where collections begin and end. A key is
recognised only by the colon after it, so that its token is put before tokens that are read
already: each place where a key may begin is remembered, one for each pair of brackets around it,
until a colon follows, the line ends, or the place is too far back.

## Main definitions

* `Yaml.Lexer`: the tokens so far, with what decides about the next ones.
* `Yaml.tokens`: the tokens of a text.
-/

namespace LayeredConfig.Yaml

/-- A place where a key may begin. -/
structure KeyPlace where
  /-- The number of tokens before the key. -/
  number : Nat
  /-- Nothing but a key may stand here. -/
  isRequired : Bool
  index : Nat
  line : Nat
  column : Nat
  deriving Repr

/-- The tokens so far, with what decides about the next ones. -/
structure Lexer where
  here : Cursor
  tokens : Array Token := #[]
  /-- The columns of the collections around the place that are laid out in lines, the innermost
  first. -/
  columns : List Nat := []
  /-- Where a key may have begun inside of the innermost brackets. -/
  keyPlace : Option KeyPlace := none
  /-- The same for the brackets around those. -/
  outerPlaces : List (Option KeyPlace) := []
  /-- A key may begin here. -/
  keyAllowed : Bool := true
  deriving Repr

namespace Lexer

/-- The place is inside of brackets. -/
def inFlow (lexer : Lexer) : Bool := !lexer.outerPlaces.isEmpty

/-- The first column that is further in than the innermost collection. -/
def margin (lexer : Lexer) : Nat :=
  match lexer.columns with
  | [] => 0
  | column :: _ => column + 1

/-- Adds a token. -/
def push (token : Token) (lexer : Lexer) : Lexer :=
  { lexer with tokens := lexer.tokens.push token }

/-! ### Space -/

/-- Goes on to the next token. A tab may not stand where a key may begin outside of brackets; a
line end makes it such a place. `limit` bounds the number of lines. -/
def skipSpace : Nat → Lexer → Lexer
  | 0, lexer => lexer
  | limit + 1, lexer =>
    let tabs := lexer.inFlow || !lexer.keyAllowed
    let here := lexer.here.skipWhile fun c => c = ' ' || (tabs && c = '\t')
    let here := here.skipComment
    match here.lineEnd? with
    | some (_, next) =>
      skipSpace limit { lexer with here := next, keyAllowed := lexer.keyAllowed || !lexer.inFlow }
    | none => { lexer with here }

/-! ### Keys -/

/-- How far back a key may begin. -/
def maxKeyLength : Nat := 1024

/-- A key that begins at a place may still end here. -/
def isFresh (here : Cursor) (place : KeyPlace) : Bool :=
  place.line = here.line && here.index ≤ place.index + maxKeyLength

/-- A place that is given up, unless a key is required there. -/
def giveUp (place : Option KeyPlace) : Option (Option KeyPlace) :=
  if place.any KeyPlace.isRequired then none else some none

/-- Gives up a place that is too far back. -/
def refresh (here : Cursor) (place : Option KeyPlace) : Option (Option KeyPlace) :=
  if place.all (isFresh here) then some place else giveUp place

/-- Gives up all places that are too far back. -/
def dropStale (lexer : Lexer) : Option Lexer := do
  let keyPlace ← refresh lexer.here lexer.keyPlace
  let outerPlaces ← lexer.outerPlaces.mapM (refresh lexer.here)
  return { lexer with keyPlace, outerPlaces }

/-- Gives up the place inside of the innermost brackets. -/
def dropKey (lexer : Lexer) : Option Lexer := do
  return { lexer with keyPlace := ← giveUp lexer.keyPlace }

/-- Remembers the place if a key may begin there. -/
def saveKey (lexer : Lexer) : Option Lexer :=
  if !lexer.keyAllowed then some lexer
  else do
    let lexer ← lexer.dropKey
    let here := lexer.here
    let place : KeyPlace :=
      { number := lexer.tokens.size
        isRequired := !lexer.inFlow && lexer.columns.head? = some here.column
        index := here.index, line := here.line, column := here.column }
    return { lexer with keyPlace := some place }

/-! ### Columns -/

/-- Begins a collection in a column that is further in than the innermost one; its first token
has the given number. -/
def indent (column number : Nat) (start : Token) (lexer : Lexer) : Lexer :=
  if lexer.inFlow || column < lexer.margin then lexer
  else
    { lexer with
      columns := column :: lexer.columns
      tokens := lexer.tokens.insertIdxIfInBounds number start }

/-- Ends the collections of the given number. -/
def close (count : Nat) (lexer : Lexer) : Lexer :=
  { lexer with
    columns := lexer.columns.drop count
    tokens := lexer.tokens ++ Array.replicate count Token.blockEnd }

/-- Ends the collections that are further in than a column. -/
def unindent (column : Nat) (lexer : Lexer) : Lexer :=
  if lexer.inFlow then lexer
  else lexer.close (lexer.columns.takeWhile (column < ·)).length

/-- Ends all collections, before a document begins or ends. -/
def leave (lexer : Lexer) : Option Lexer := do
  let lexer := if lexer.inFlow then lexer else lexer.close lexer.columns.length
  let lexer ← lexer.dropKey
  return { lexer with keyAllowed := false }

/-! ### Tokens -/

/-- Takes a token of so many characters. -/
def sign (token : Token) (width : Nat) (lexer : Lexer) : Lexer :=
  { lexer.push token with here := lexer.here.skip width }

/-- Takes an opening bracket. -/
def openAt (token : Token) (lexer : Lexer) : Option Lexer := do
  let lexer ← lexer.saveKey
  return { lexer.sign token 1 with
    keyPlace := none, outerPlaces := lexer.keyPlace :: lexer.outerPlaces, keyAllowed := true }

/-- Takes a closing bracket. -/
def closeAt (token : Token) (lexer : Lexer) : Option Lexer := do
  let lexer ← lexer.dropKey
  let lexer := { lexer.sign token 1 with keyAllowed := false }
  match lexer.outerPlaces with
  | [] => return lexer
  | place :: places => return { lexer with keyPlace := place, outerPlaces := places }

/-- Takes a comma. -/
def comma (lexer : Lexer) : Option Lexer := do
  let lexer ← lexer.dropKey
  return { lexer.sign .comma 1 with keyAllowed := true }

/-- Begins a collection in the column of a sign, which may only stand where a key may begin. -/
def indentAt (start : Token) (lexer : Lexer) : Option Lexer :=
  if lexer.inFlow then some lexer
  else if lexer.keyAllowed then
    some (lexer.indent lexer.here.column lexer.tokens.size start)
  else none

/-- Takes the dash before an item. -/
def dash (lexer : Lexer) : Option Lexer := do
  let lexer ← (← lexer.indentAt .sequenceStart).dropKey
  return { lexer.sign .dash 1 with keyAllowed := true }

/-- Takes the question mark before a key. -/
def question (lexer : Lexer) : Option Lexer := do
  let lexer ← (← lexer.indentAt .mappingStart).dropKey
  return { lexer.sign .key 1 with keyAllowed := !lexer.inFlow }

/-- Takes the colon before a value. Where a key may have begun, it has, and so has a mapping in
its column. -/
def colon (lexer : Lexer) : Option Lexer :=
  match lexer.keyPlace with
  | some place =>
    let tokens := lexer.tokens.insertIdxIfInBounds place.number .key
    let lexer := { lexer with tokens, keyPlace := none, keyAllowed := false }
    some ((lexer.indent place.column place.number .mappingStart).sign .value 1)
  | none => do
    let lexer ← lexer.indentAt .mappingStart
    return { lexer.sign .value 1 with keyAllowed := !lexer.inFlow }

/-- Takes the name after the sign of an anchor or an alias. -/
def named (token : List Char → Token) (lexer : Lexer) : Option Lexer := do
  let lexer ← lexer.saveKey
  let (found, here) ← name (lexer.here.skip 1)
  return { lexer.push (token found) with here, keyAllowed := false }

/-- Takes a tag, after which a gap follows, or in brackets a comma. -/
def tagged (lexer : Lexer) : Option Lexer := do
  let lexer ← lexer.saveKey
  let ((handle, suffix), here) ← tag lexer.here
  if atGap here.rest || (lexer.inFlow && here.rest.head? = some ',') then
    return { lexer.push (.tag handle suffix) with here, keyAllowed := false }
  else none

/-- Takes a block scalar. `limit` exceeds the number of characters that follow. -/
def blockScalar (isFolded : Bool) (limit : Nat) (lexer : Lexer) : Option Lexer := do
  let lexer ← lexer.dropKey
  let (text, here) ← block isFolded lexer.margin limit (lexer.here.skip 1)
  return { lexer.push (.scalar text false) with here, keyAllowed := true }

/-- Takes a quoted scalar. `limit` exceeds the number of characters that follow. -/
def quotedScalar (quote : Char) (limit : Nat) (lexer : Lexer) : Option Lexer := do
  let lexer ← lexer.saveKey
  let (text, here) ← quoted quote limit (lexer.here.skip 1)
  return { lexer.push (.scalar text false) with here, keyAllowed := false }

/-- Takes a plain scalar. `limit` exceeds the number of characters that follow. -/
def plainScalar (limit : Nat) (lexer : Lexer) : Option Lexer := do
  let lexer ← lexer.saveKey
  let ((text, isFolded), here) ← plain lexer.inFlow lexer.margin limit lexer.here
  return { lexer.push (.scalar text true) with here, keyAllowed := isFolded }

/-- Takes a directive after its percent sign. -/
def directiveLine (lexer : Lexer) : Option Lexer := do
  let lexer ← lexer.leave
  let (token, here) ← directive (lexer.here.skip 1)
  return { lexer.push token with here }

/-- Takes a document mark. -/
def documentMark (token : Token) (lexer : Lexer) : Option Lexer := do
  return (← lexer.leave).sign token 3

/-- The characters with which no plain scalar begins, unless the next one is no gap after some
of them. -/
def isIndicator (c : Char) : Bool :=
  "-?:,[]\x7b\x7d#&*!|>'\"%@`".toList.contains c

/-- Takes the token at a place where one begins. `limit` exceeds the number of characters that
follow. -/
def token (limit : Nat) (lexer : Lexer) : Option Lexer :=
  match lexer.here.rest with
  | [] => none
  | c :: rest =>
    if lexer.here.column = 0 ∧ c = '%' then lexer.directiveLine
    else if lexer.here.atDocumentMark then
      lexer.documentMark (if c = '-' then .documentStart else .documentEnd)
    else if c = '[' then lexer.openAt .openBracket
    else if c = '{' then lexer.openAt .openBrace
    else if c = ']' then lexer.closeAt .closeBracket
    else if c = '}' then lexer.closeAt .closeBrace
    else if c = ',' then lexer.comma
    else if c = '-' ∧ atGap rest then lexer.dash
    else if c = '?' ∧ (lexer.inFlow ∨ atGap rest) then lexer.question
    else if c = ':' ∧ (lexer.inFlow ∨ atGap rest) then lexer.colon
    else if c = '*' then lexer.named .alias
    else if c = '&' then lexer.named .anchor
    else if c = '!' then lexer.tagged
    else if c = '|' ∧ !lexer.inFlow then lexer.blockScalar false limit
    else if c = '>' ∧ !lexer.inFlow then lexer.blockScalar true limit
    else if c = '\'' ∨ c = '"' then lexer.quotedScalar c limit
    else if !(isBlank c || isIndicator c) || c = '-' || c = '?' || c = ':' then
      lexer.plainScalar limit
    else none

/-- Takes all tokens. `limit` exceeds the number of characters that follow. -/
def run : Nat → Lexer → Option Lexer
  | 0, _ => none
  | limit + 1, lexer => do
    let lexer ← (lexer.skipSpace (limit + 1)).dropStale
    if lexer.here.rest.isEmpty then lexer.leave
    else
      let lexer ← (lexer.unindent lexer.here.column).token (limit + 1)
      run limit lexer

end Lexer

/-- The characters that a text may hold: no controls other than tabs and line ends. -/
def isPrintable (c : Char) : Bool :=
  let n := c.toNat
  c = '\t' || c = '\n' || c = '\r' || c = '\x85' || (0x20 ≤ n && n ≤ 0x7E)
    || (0xA0 ≤ n && n ≤ 0xFFFD) || 0x10000 ≤ n

/-- The place where the first token may begin. A byte order mark counts for a blank. -/
def beginning (text : List Char) : Cursor :=
  match text with
  | '\uFEFF' :: rest => { rest := rest, index := 1, column := 1 }
  | rest => { rest }

/-- The tokens of a text. -/
def tokens (text : List Char) : Option (List Token) :=
  if text.all isPrintable then
    ((Lexer.run (text.length + 1) { here := beginning text }).map fun lexer => lexer.tokens.toList)
  else none

end LayeredConfig.Yaml
