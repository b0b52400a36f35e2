import LayeredConfig.Failure
import LayeredConfig.Text

/-!
# References to other keys

A text may refer to keys as `${key}` or `${key:default}`. A reference is innermost: its body
has at least one character and none of `$`, `{` and `}`. One pass replaces every innermost
reference that is known or carries a default, from left to right; passes are repeated until
the text no longer changes, so that values may refer to further keys and defaults may hold
references themselves.

## Main definitions

* `Placeholder.pieces`: a text as a list of plain characters and innermost references.
* `Placeholder.pass`: the text after one replacement of all of them.
* `Placeholder.resolve`: the text after the last pass, or the failure that there is none.
-/

namespace LayeredConfig.Placeholder

/-- A part of a text: a character that stands for itself, or a reference by its body. -/
inductive Piece
  | plain (c : Char)
  | reference (body : List Char)
  deriving DecidableEq, Repr

/-- The characters that the body of a reference may hold. -/
def isBodyChar (c : Char) : Bool :=
  c != '$' && c != '{' && c != '}'

/-- The body of the reference at the start of a text, and what follows it. -/
def takeReference : List Char → Option (List Char × List Char)
  | '$' :: '{' :: text =>
    match text.takeWhile isBodyChar, text.dropWhile isBodyChar with
    | c :: body, '}' :: rest => some (c :: body, rest)
    | _, _ => none
  | _ => none

theorem length_lt_of_takeReference {text body rest : List Char}
    (h : takeReference text = some (body, rest)) : rest.length < text.length := by
  unfold takeReference at h
  split at h
  · next text =>
    split at h
    · next c body rest hbody hrest =>
      cases h
      have hle := (List.dropWhile_sublist (l := text) isBodyChar).length_le
      rw [hrest] at hle
      simp only [List.length_cons] at hle ⊢
      omega
    · cases h
  · cases h

/-- A text cut into its plain characters and its innermost references. -/
def pieces (text : List Char) : List Piece :=
  match _h : takeReference text with
  | some (body, rest) => .reference body :: pieces rest
  | none =>
    match text with
    | [] => []
    | c :: rest => .plain c :: pieces rest
termination_by text.length
decreasing_by
  · exact length_lt_of_takeReference _h
  · simp

namespace Piece

/-- The piece as it is written. -/
def written : Piece → List Char
  | plain c => [c]
  | reference body => '$' :: '{' :: body ++ ['}']

/-- The key that a body refers to: what stands before its first colon, trimmed. -/
def key (body : List Char) : String :=
  String.ofList (Text.trim (body.takeWhile (· != ':')))

/-- The default that a body carries: what stands after its first colon. -/
def default? (body : List Char) : Option (List Char) :=
  (Text.cutFirst ':' body).map Prod.snd

/-- What replaces the piece: the value of its key, else its default, else itself. -/
def expansion (lookup : String → Option String) : Piece → List Char
  | plain c => [c]
  | reference body =>
    match lookup (key body) with
    | some value => value.toList
    | none => (default? body).getD (reference body).written

/-- The value of the key that the piece refers to holds that very reference again. -/
def isSelfReference (lookup : String → Option String) : Piece → Bool
  | plain _ => false
  | reference body =>
    match lookup (key body) with
    | some value => Text.contains (reference body).written value.toList
    | none => false

end Piece

/-- The text after one replacement of all its innermost references. -/
def pass (lookup : String → Option String) (text : List Char) : List Char :=
  (pieces text).flatMap (Piece.expansion lookup)

/-- The text that up to `passes` passes lead to. There is none when a value holds the
reference that asks for it, or when the last pass still changes the text. -/
def settle (lookup : String → Option String) : Nat → List Char → Option (List Char)
  | 0, _ => none
  | passes + 1, text =>
    if (pieces text).any (Piece.isSelfReference lookup) then none
    else
      let next := pass lookup text
      if next = text then some text else settle lookup passes next

/-- The number of passes after which a text counts as circular. -/
def maxPasses : Nat := 32

/-- The text with its references replaced until nothing changes. References that are neither
known nor carry a default stay as they are written. -/
def resolve (lookup : String → Option String) (text : String) : Except Failure String :=
  match settle lookup maxPasses text.toList with
  | some settled => .ok (String.ofList settled)
  | none => .error (.circularPlaceholder text)

end LayeredConfig.Placeholder
