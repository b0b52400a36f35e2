import LayeredConfig.Text
import LayeredConfig.Yaml.Token

/-!
# Scalars inside of lines

A plain scalar has no marks around it and ends where something else begins; a quoted one ends
with its quote. Both may go on over several lines, which are folded: one line end becomes a
space, and of several all but the first remain.

## Main definitions

* `Yaml.Gap`: what separates two words of a scalar.
* `Yaml.plain`, `Yaml.quoted`.
-/

namespace LayeredConfig.Yaml

/-! ### Gaps -/

/-- What separates two words of a scalar. -/
structure Gap where
  /-- The blanks before the first line end. -/
  blanks : List Char := []
  breaks : List Char := []
  /-- A line end stands before the gap that does not count. -/
  isContinued : Bool := false

namespace Gap

/-- The gap reaches into another line. -/
def isFolded (gap : Gap) : Bool := gap.isContinued || !gap.breaks.isEmpty

/-- The characters that the gap contributes to the scalar. -/
def text (gap : Gap) : List Char :=
  if gap.isContinued then gap.breaks
  else
    match gap.breaks with
    | [] => gap.blanks
    | ['\n'] => [' ']
    | '\n' :: others => others
    | breaks => breaks

end Gap

/-- Takes blanks and line ends. In the lines after the first no tab may stand before the column
`margin`. `limit` bounds the number of characters. -/
def gap (margin : Nat) : Nat → Gap → Cursor → Option (Gap × Cursor)
  | 0, _, _ => none
  | limit + 1, found, here =>
    match here.lineEnd? with
    | some (c, next) => gap margin limit { found with breaks := found.breaks ++ [c] } next
    | none =>
      match here.rest with
      | c :: _ =>
        if !isBlank c then some (found, here)
        else if found.isFolded then
          if c = '\t' ∧ here.column < margin then none
          else gap margin limit found (here.skip 1)
        else gap margin limit { found with blanks := found.blanks ++ [c] } (here.skip 1)
      | [] => some (found, here)

/-! ### Plain scalars -/

/-- A character begins or ends a collection in brackets, or separates its items. -/
def isFlowSign (c : Char) : Bool :=
  c = ',' || c = '[' || c = ']' || c = '{' || c = '}'

/-- The characters up to the next gap or the end of a plain scalar, after the characters `done`,
the last one first. In brackets a colon must not stand before one of their signs. -/
def plainWord (inFlow : Bool) (done : List Char) : List Char → Option (List Char)
  | [] => some done.reverse
  | c :: rest =>
    if isBlank c || isBreak c then some done.reverse
    else if inFlow && c = ':' && rest.head?.any fun d => isFlowSign d || d = '?' then none
    else if (c = ':' && atGap rest) || (inFlow && isFlowSign c) then some done.reverse
    else plainWord inFlow (c :: done) rest

/-- Takes the rest of a plain scalar of which the characters `done` are read, the last one
first, up to the gap `before`. The scalar ends at a line that begins before the column `margin`,
at a document mark and at a comment. Tells whether the gap after it is folded. `limit` exceeds
the number of characters that follow. -/
def plainWords (inFlow : Bool) (margin : Nat) :
    Nat → List Char → Gap → Cursor → Option ((List Char × Bool) × Cursor)
  | 0, _, _, _ => none
  | limit + 1, done, before, here =>
    let isLeft := !inFlow && before.isFolded && here.column < margin
    if isLeft || here.atDocumentMark || here.rest.head? = some '#' then
      some ((done.reverse, before.isFolded), here)
    else
      match plainWord inFlow [] here.rest with
      | none => none
      | some [] => some ((done.reverse, before.isFolded), here)
      | some word =>
        let next := here.skip word.length
        let done := word.reverse ++ (before.text.reverse ++ done)
        match gap margin limit {} next with
        | some (after, next) => plainWords inFlow margin limit done after next
        | none => none

/-- Takes a plain scalar, and tells whether line ends follow it. `limit` exceeds the number of
characters that follow. -/
def plain (inFlow : Bool) (margin limit : Nat) (here : Cursor) :
    Option ((List Char × Bool) × Cursor) :=
  plainWords inFlow margin limit [] {} here

/-! ### Quoted scalars -/

/-- The character that a letter stands for after a backslash. -/
def shortEscape? : Char → Option Char
  | '0' => some '\x00'
  | 'a' => some '\x07'
  | 'b' => some '\x08'
  | 't' | '\t' => some '\t'
  | 'n' => some '\n'
  | 'v' => some '\x0b'
  | 'f' => some '\x0c'
  | 'r' => some '\r'
  | 'e' => some '\x1b'
  | ' ' => some ' '
  | '"' => some '"'
  | '/' => some '/'
  | '\\' => some '\\'
  | 'N' => some '\x85'
  | '_' => some '\xa0'
  | 'L' => some '\u2028'
  | 'P' => some '\u2029'
  | _ => none

/-- How many hexadecimal digits follow a letter after a backslash. -/
def escapeDigits : Char → Nat
  | 'x' => 2
  | 'u' => 4
  | 'U' => 8
  | _ => 0

/-- The character of an escape, from the letter after the backslash and what follows it. -/
def escaped? (letter : Char) (rest : List Char) : Option Char :=
  match escapeDigits letter with
  | 0 => shortEscape? letter
  | count => (Text.hexNumber count rest).bind fun (number, _) => Text.charOf? number

/-- A word in quotes ends: with the text, before a gap, or before the closing quote. A single
quote that is written twice closes nothing. -/
def endsQuotedWord (quote : Char) : List Char → Bool
  | [] => true
  | c :: rest =>
    isBlank c || isBreak c || (c = quote && (quote ≠ '\'' || rest.head? ≠ some quote))

/-- Takes the characters up to the next gap or the closing quote, after the characters `done`,
the last one first. In double quotes a backslash before a line end takes away the line end and
begins the gap. `limit` bounds the number of characters. -/
def quotedWord (quote : Char) : Nat → List Char → Cursor → Option ((List Char × Gap) × Cursor)
  | 0, _, _ => none
  | limit + 1, done, here =>
    if endsQuotedWord quote here.rest then some ((done.reverse, {}), here)
    else
      match here.rest with
      | [] => none
      | c :: rest =>
        if c = quote then quotedWord quote limit (quote :: done) (here.skip 2)
        else if c = '\\' ∧ quote = '"' then
          match (here.skip 1).lineEnd? with
          | some (_, next) => some ((done.reverse, { isContinued := true }), next)
          | none =>
            match rest with
            | letter :: after =>
              match escaped? letter after with
              | some d => quotedWord quote limit (d :: done) (here.skip (2 + escapeDigits letter))
              | none => none
            | [] => none
        else quotedWord quote limit (c :: done) (here.skip 1)

/-- Takes the rest of a quoted scalar of which the characters `done` are read, the last one
first. `limit` exceeds the number of characters that follow. -/
def quotedWords (quote : Char) : Nat → List Char → Cursor → Option (List Char × Cursor)
  | 0, _, _ => none
  | limit + 1, done, here =>
    if here.atDocumentMark then none
    else
      match quotedWord quote (limit + 1) [] here with
      | none => none
      | some ((word, before), next) =>
        let done := word.reverse ++ done
        if next.rest.head? = some quote then some (done.reverse, next.skip 1)
        else
          match gap 0 (limit + 1) before next with
          | none => none
          | some (between, next) =>
            if next.rest.isEmpty then none
            else quotedWords quote limit (between.text.reverse ++ done) next

/-- Takes a quoted scalar after its opening quote. `limit` exceeds the number of characters that
follow. -/
def quoted (quote : Char) (limit : Nat) (here : Cursor) : Option (List Char × Cursor) :=
  quotedWords quote limit [] here

end LayeredConfig.Yaml
