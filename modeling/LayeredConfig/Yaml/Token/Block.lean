import LayeredConfig.Text
import LayeredConfig.Yaml.Token

/-!
# Scalars in lines of their own

A block scalar stands in the lines below its header, from a column on that they have in common.
A literal one keeps its line ends. A folded one joins two lines by a space, unless an empty or a
further indented line stands between or beside them.

## Main definitions

* `Yaml.Chomping`: what becomes of the line ends at the end.
* `Yaml.block`.
-/

namespace LayeredConfig.Yaml

/-- What becomes of the line ends at the end of a block scalar. -/
inductive Chomping
  /-- The first remains. -/
  | clip
  | strip
  | keep
  deriving DecidableEq, Repr

/-- The chomping that a sign asks for. -/
def chomping? : List Char → Option Chomping
  | '+' :: _ => some .keep
  | '-' :: _ => some .strip
  | _ => none

/-- The additional indentation that a digit asks for. Zero is refused. -/
def indentation? : List Char → Option (Option Nat)
  | c :: _ =>
    if c = '0' then none
    else if c.isDigit then some (some (Text.digitValue c))
    else some none
  | [] => some none

/-- Takes the header of a block scalar after its sign, with the rest of the line: the chomping and
the additional indentation, in any order. -/
def blockHeader (here : Cursor) : Option ((Chomping × Option Nat) × Cursor) := do
  let width {α : Type} (found : Option α) : Nat := if found.isSome then 1 else 0
  let early := chomping? here.rest
  let next := here.skip (width early)
  let indentation ← indentation? next.rest
  let next := next.skip (width indentation)
  let late := if early.isNone ∧ indentation.isSome then chomping? next.rest else none
  let next ← (next.skip (width late)).finishLine?
  return (((early.or late).getD .clip, indentation), next)

/-- Takes empty lines and the spaces after them, up to the column `indent` if that is known: their
line ends after those in `found`, and the greatest column that is reached, at least `deepest`. No
tab may stand in place of the spaces. `limit` bounds the number of lines. -/
def emptyLines (indent : Option Nat) :
    Nat → List Char → Nat → Cursor → Option ((List Char × Nat) × Cursor)
  | 0, _, _, _ => none
  | limit + 1, found, deepest, here =>
    let spaces := (here.rest.takeWhile (· == ' ')).length
    let next := here.skip ((indent.map fun column => min spaces (column - here.column)).getD spaces)
    let deepest := max deepest next.column
    if next.rest.head? = some '\t' ∧ indent.all (next.column < ·) then none
    else
      match next.lineEnd? with
      | some (c, next) => emptyLines indent limit (found ++ [c]) deepest next
      | none => some ((found, deepest), next)

/-- The lines of a block scalar that are read. -/
structure BlockLines where
  /-- The text of the lines, the last character first. -/
  done : List Char := []
  /-- The end of the last line. -/
  lineEnd : Option Char := none
  /-- The ends of the empty lines after it. -/
  breaks : List Char := []
  /-- The last line is indented further than the others. -/
  isIndented : Bool := false

namespace BlockLines

/-- The lines with one more. In a folded scalar the line end before it becomes a space if no empty
line stands between, and disappears otherwise, as long as neither line is indented further. -/
def add (isFolded : Bool) (lines : BlockLines) (line : List Char) (lineEnd : Option Char) :
    BlockLines :=
  let isIndented := line.head?.any isBlank
  let joint :=
    if isFolded ∧ lines.lineEnd = some '\n' ∧ !lines.isIndented ∧ !isIndented then
      if lines.breaks.isEmpty then [' '] else []
    else lines.lineEnd.toList
  { done := line.reverse ++ (lines.breaks.reverse ++ (joint ++ lines.done))
    lineEnd, isIndented }

/-- The text of the scalar. -/
def text (chomping : Chomping) (lines : BlockLines) : List Char :=
  lines.done.reverse ++
    match chomping with
    | .strip => []
    | .clip => lines.lineEnd.toList
    | .keep => lines.lineEnd.toList ++ lines.breaks

end BlockLines

/-- Takes the lines that begin in a column. `limit` exceeds the number of characters that
follow. -/
def blockLines (isFolded : Bool) (column : Nat) :
    Nat → BlockLines → Cursor → Option (BlockLines × Cursor)
  | 0, _, _ => none
  | limit + 1, lines, here =>
    if here.column ≠ column ∨ here.rest.isEmpty then some (lines, here)
    else
      let (line, next) := here.takeWhile fun c => !isBreak c
      let (lineEnd, next) :=
        match next.lineEnd? with
        | some (c, next) => (some c, next)
        | none => (none, next)
      match emptyLines (some column) (limit + 1) [] 0 next with
      | some ((breaks, _), next) =>
        blockLines isFolded column limit { lines.add isFolded line lineEnd with breaks } next
      | none => none

/-- Takes a block scalar after its sign. Its lines begin in a column of at least `margin`: where
the header does not say which, in the greatest that is reached before the first line that is not
empty. `limit` exceeds the number of characters that follow. -/
def block (isFolded : Bool) (margin limit : Nat) (here : Cursor) :
    Option (List Char × Cursor) := do
  let ((chomping, indentation), here) ← blockHeader here
  let known := indentation.map fun more => margin - 1 + more
  let ((breaks, deepest), here) ← emptyLines known limit [] 0 here
  let column := known.getD (max deepest (max margin 1))
  let (lines, here) ← blockLines isFolded column limit { breaks } here
  return (lines.text chomping, here)

end LayeredConfig.Yaml
