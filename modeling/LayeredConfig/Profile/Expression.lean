import LayeredConfig.Failure
import LayeredConfig.Text

/-!
# Profile expressions

An expression says for which sets of active profiles a document is meant: a name, `!` before
an operand, operands joined by `&`, operands joined by `|`, and parentheses. The two joining
operators do not mix at one level.

## Main definitions

* `Token`, `tokens`: the words of an expression; a name is a maximal run of characters other
  than blanks, parentheses and operators.
* `Expression`, `Expression.holds`: the tree, and whether it holds for a set of names.
* `Expression.parse`: the tree of a text, or the reason why it has none.
-/

namespace LayeredConfig

/-- A word of a profile expression. -/
inductive Token
  | leftParen
  | rightParen
  | ampersand
  | bar
  | bang
  | name (text : String)
  deriving DecidableEq, Repr

namespace Token

/-- The word that a single character stands for. -/
def symbol? : Char → Option Token
  | '(' => some leftParen
  | ')' => some rightParen
  | '&' => some ampersand
  | '|' => some bar
  | '!' => some bang
  | _ => none

/-- The characters that a name may hold. -/
def isNameChar (c : Char) : Bool :=
  (symbol? c).isNone && !Text.isBlank c

end Token

private theorem length_dropWhile_le (p : Char → Bool) (text : List Char) :
    (text.dropWhile p).length ≤ text.length :=
  (List.dropWhile_sublist p).length_le

/-- The words of a text, from left to right. Blank characters end a name and are no word. -/
def tokens : List Char → List Token
  | [] => []
  | c :: text =>
    match Token.symbol? c with
    | some token => token :: tokens text
    | none =>
      if Text.isBlank c then tokens text
      else
        .name (String.ofList (c :: text.takeWhile Token.isNameChar)) ::
          tokens (text.dropWhile Token.isNameChar)
termination_by text => text.length
decreasing_by
  all_goals simp only [List.length_cons]
  all_goals have := length_dropWhile_le Token.isNameChar text
  all_goals omega

/-- A condition on the set of active profiles. -/
inductive Expression
  | name (text : String)
  | not (operand : Expression)
  | all (operands : List Expression)
  | any (operands : List Expression)
  deriving Repr

namespace Expression

mutual

/-- The condition holds when exactly the names with `isActive` are active. -/
def holds (isActive : String → Bool) : Expression → Bool
  | name text => isActive text
  | not operand => !operand.holds isActive
  | all operands => allHold isActive operands
  | any operands => anyHolds isActive operands

/-- Every condition of the list holds. -/
def allHold (isActive : String → Bool) : List Expression → Bool
  | [] => true
  | operand :: operands => operand.holds isActive && allHold isActive operands

/-- Some condition of the list holds. -/
def anyHolds (isActive : String → Bool) : List Expression → Bool
  | [] => false
  | operand :: operands => operand.holds isActive || anyHolds isActive operands

end

@[simp] theorem allHold_eq (isActive : String → Bool) (operands : List Expression) :
    allHold isActive operands = operands.all fun operand => operand.holds isActive := by
  induction operands with
  | nil => simp [allHold]
  | cons operand operands ih => simp [allHold, ih]

@[simp] theorem anyHolds_eq (isActive : String → Bool) (operands : List Expression) :
    anyHolds isActive operands = operands.any fun operand => operand.holds isActive := by
  induction operands with
  | nil => simp [anyHolds]
  | cons operand operands ih => simp [anyHolds, ih]

/-! ### Reading -/

/-- What a reader gives back: a value and the words after it, fewer than it was given. -/
abbrev Reading (α : Type) (words : List Token) : Type :=
  Except ProfileFault (α × { rest : List Token // rest.length < words.length })

/-- What a reader of further operands gives back: it may leave all words. -/
abbrev Continuation (α : Type) (words : List Token) : Type :=
  Except ProfileFault (α × { rest : List Token // rest.length ≤ words.length })

/-- An operator that joins operands. -/
inductive Junction
  | and
  | or
  deriving DecidableEq, Repr

namespace Junction

/-- The operator that a word stands for. -/
def ofToken? : Token → Option Junction
  | .ampersand => some and
  | .bar => some or
  | _ => none

/-- The tree of operands joined by the operator. -/
def join : Junction → List Expression → Expression
  | and, operands => .all operands
  | or, operands => .any operands

end Junction

mutual

/-- Reads an operand: a name, a negated operand or a whole expression in parentheses. -/
def readOperand (words : List Token) : Reading Expression words :=
  match words with
  | .bang :: rest =>
    match readOperand rest with
    | .error fault => .error fault
    | .ok (operand, ⟨rest', h⟩) => .ok (.not operand, ⟨rest', by simp; omega⟩)
  | .leftParen :: rest =>
    match readJoined rest with
    | .error fault => .error fault
    | .ok (inner, ⟨.rightParen :: rest', h⟩) =>
      .ok (inner, ⟨rest', by simp at h ⊢; omega⟩)
    | .ok _ => .error .unclosedGroup
  | .name text :: rest => .ok (.name text, ⟨rest, by simp⟩)
  | _ => .error .malformedExpression
termination_by 2 * words.length

/-- Reads operands joined by one and the same operator. -/
def readJoined (words : List Token) : Reading Expression words :=
  match readOperand words with
  | .error fault => .error fault
  | .ok (first, ⟨rest, h⟩) =>
    match rest.head?.bind Junction.ofToken? with
    | none => .ok (first, ⟨rest, h⟩)
    | some junction =>
      match readFurther junction rest with
      | .error fault => .error fault
      | .ok (others, ⟨rest', h'⟩) =>
        .ok (junction.join (first :: others), ⟨rest', Nat.lt_of_le_of_lt h' h⟩)
termination_by 2 * words.length + 1

/-- Reads further operands, each after the operator `junction`. -/
def readFurther (junction : Junction) (words : List Token) :
    Continuation (List Expression) words :=
  match words with
  | [] => .ok ([], ⟨[], Nat.le_refl _⟩)
  | word :: rest =>
    match Junction.ofToken? word with
    | none => .ok ([], ⟨word :: rest, Nat.le_refl _⟩)
    | some other =>
      if other ≠ junction then .error .mixedOperators
      else
        match readOperand rest with
        | .error fault => .error fault
        | .ok (operand, ⟨rest', h⟩) =>
          match readFurther junction rest' with
          | .error fault => .error fault
          | .ok (others, ⟨rest'', h'⟩) =>
            .ok (operand :: others, ⟨rest'', by simp; omega⟩)
termination_by 2 * words.length

end

/-- The tree of a list of words. -/
def ofTokens (words : List Token) : Except ProfileFault Expression :=
  if words.isEmpty then .error .emptyExpression
  else
    match readJoined words with
    | .error fault => .error fault
    | .ok (expression, ⟨[], _⟩) => .ok expression
    | .ok _ => .error .malformedExpression

/-- The tree of an expression. -/
def parse (text : String) : Except Failure Expression :=
  match ofTokens (tokens text.toList) with
  | .ok expression => .ok expression
  | .error fault => .error (.invalidProfile text fault)

end Expression

end LayeredConfig
