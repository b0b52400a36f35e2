import LayeredConfig.Proofs.Profile.Nesting

/-!
# Writing expressions

A tree is written word by word, with parentheses around every joined expression that is itself an
operand, also where the operators are the same. Blanks may stand between any two words. Reading what
was written gives the tree back, provided that it can be written at all: its names are names, and
operators join at least two operands. All trees that are read from a text are of this kind.

## Main definitions

* `isWritable`: the trees that can be written.
* `words`, `print`: a tree as words, and as a text with the given gaps.

## Main results

* `isExpression_words`: the words of a tree derive that tree.
* `isWritable_iff_of_isExpression`: a derived tree can be written iff its words have proper names.
* `parse_print`: writing and reading are inverse.
-/

namespace LayeredConfig

namespace Expression

/-! ### Trees that can be written -/

mutual

/-- Every name may stand as a name, and operators join at least two operands. -/
def isWritable : Expression → Bool
  | .name text => Token.isName text
  | .not operand => operand.isWritable
  | .all operands => decide (2 ≤ operands.length) && allWritable operands
  | .any operands => decide (2 ≤ operands.length) && allWritable operands

/-- Every expression of the list can be written. -/
def allWritable : List Expression → Bool
  | [] => true
  | operand :: operands => operand.isWritable && allWritable operands

end

/-- Operands are joined at the root of the tree. -/
def isJoined : Expression → Bool
  | .all _ => true
  | .any _ => true
  | _ => false

/-- The words of an operand: a joined expression stands in parentheses. -/
def enclose (operand : Expression) (words : List Token) : List Token :=
  if operand.isJoined then .leftParen :: (words ++ [.rightParen]) else words

mutual

/-- The words of a tree. -/
def words : Expression → List Token
  | .name text => [.name text]
  | .not operand => .bang :: operand.enclose operand.words
  | .all operands => joinedWords .and operands
  | .any operands => joinedWords .or operands

/-- The words of joined operands. -/
def joinedWords (junction : Junction) : List Expression → List Token
  | [] => []
  | first :: others => first.enclose first.words ++ furtherWords junction others

/-- The words of further operands, each of them after the operator. -/
def furtherWords (junction : Junction) : List Expression → List Token
  | [] => []
  | operand :: others =>
    junction.word :: (operand.enclose operand.words ++ furtherWords junction others)

end

/-- A tree as a text, with gaps before, between and after its words. -/
def print (gap : ℕ → List Char) (expression : Expression) : String :=
  String.ofList (Token.write gap expression.words)

/-! ### Writing -/

private theorem isOperand_enclose {expression : Expression} {words : List Token}
    (h : IsExpression words expression)
    (hoperand : expression.isJoined = false → IsOperand words expression) :
    IsOperand (expression.enclose words) expression := by
  unfold enclose
  split
  · exact .group h
  · next hjoined => exact hoperand (by simpa using hjoined)

mutual

/-- The words of a tree derive the tree, and they are an operand where nothing is joined. -/
private theorem derived_words (expression : Expression) (h : expression.isWritable = true) :
    IsExpression expression.words expression ∧
      (expression.isJoined = false → IsOperand expression.words expression) := by
  match expression with
  | .name text => exact ⟨.operand (.name text), fun _ => .name text⟩
  | .not operand =>
    obtain ⟨hinner, hoperand⟩ := derived_words operand h
    have hnot : IsOperand (words (.not operand)) (.not operand) :=
      .not (isOperand_enclose hinner hoperand)
    exact ⟨.operand hnot, fun _ => hnot⟩
  | .all operands =>
    obtain ⟨hlength, hall⟩ := Bool.and_eq_true_iff.mp h
    exact ⟨joined_joinedWords .and operands (of_decide_eq_true hlength) hall, fun h => by cases h⟩
  | .any operands =>
    obtain ⟨hlength, hall⟩ := Bool.and_eq_true_iff.mp h
    exact ⟨joined_joinedWords .or operands (of_decide_eq_true hlength) hall, fun h => by cases h⟩

private theorem joined_joinedWords (junction : Junction) (operands : List Expression)
    (hlength : 2 ≤ operands.length) (h : allWritable operands = true) :
    IsExpression (joinedWords junction operands) (junction.join operands) := by
  match operands with
  | [] => cases hlength
  | first :: others =>
    obtain ⟨hfirst, hothers⟩ := Bool.and_eq_true_iff.mp h
    obtain ⟨hinner, hoperand⟩ := derived_words first hfirst
    refine .joined junction (isOperand_enclose hinner hoperand)
      (further_furtherWords junction others hothers) ?_
    rintro rfl
    simp at hlength

private theorem further_furtherWords (junction : Junction) (operands : List Expression)
    (h : allWritable operands = true) :
    AreFurther junction (furtherWords junction operands) operands := by
  match operands with
  | [] => exact .nil junction
  | operand :: others =>
    obtain ⟨hfirst, hothers⟩ := Bool.and_eq_true_iff.mp h
    obtain ⟨hinner, hoperand⟩ := derived_words operand hfirst
    exact .cons (isOperand_enclose hinner hoperand) (further_furtherWords junction others hothers)

end

theorem isExpression_words {expression : Expression} (h : expression.isWritable = true) :
    IsExpression expression.words expression :=
  (derived_words expression h).1

/-! ### Names -/

/-- Every name among the words may stand as a name. -/
def NamesProper (words : List Token) : Prop :=
  ∀ name, .name name ∈ words → Token.isName name = true

theorem namesProper_cons {word : Token} {words : List Token} (h : word.isNamed = false) :
    NamesProper (word :: words) ↔ NamesProper words := by
  refine forall_congr' fun name => ?_
  rw [List.mem_cons, or_iff_right]
  rintro rfl
  cases h

theorem namesProper_append {words rest : List Token} :
    NamesProper (words ++ rest) ↔ NamesProper words ∧ NamesProper rest := by
  simp only [NamesProper, List.mem_append, or_imp, forall_and]

theorem namesProper_name {name : String} : NamesProper [.name name] ↔ Token.isName name = true := by
  simp [NamesProper]

private theorem isWritable_join {junction : Junction} {first : Expression}
    {others : List Expression} (hsome : others ≠ []) :
    (junction.join (first :: others)).isWritable = true ↔
      first.isWritable = true ∧ allWritable others = true := by
  have hlength : 2 ≤ (first :: others).length := by
    have := List.length_pos_iff.mpr hsome
    rw [List.length_cons]
    omega
  cases junction <;> simp only [Junction.join, isWritable, allWritable, hlength, decide_true,
    Bool.true_and, Bool.and_eq_true]

private theorem isWritable_iff_of_derived :
    (∀ {words operand}, IsOperand words operand →
      (operand.isWritable = true ↔ NamesProper words)) ∧
    (∀ {words expression}, IsExpression words expression →
      (expression.isWritable = true ↔ NamesProper words)) ∧
    ∀ {junction words others}, AreFurther junction words others →
      (allWritable others = true ↔ NamesProper words) := by
  apply derivation
  case name => exact fun text => namesProper_name.symm
  case not => exact fun ih => ih.trans (namesProper_cons rfl).symm
  case group =>
    intro words inner ih
    rw [ih, namesProper_cons rfl, namesProper_append, namesProper_cons rfl]
    exact (and_iff_left (by simp [NamesProper])).symm
  case operand => exact fun ih => ih
  case joined =>
    intro words rest first others junction ih ihothers hsome
    rw [isWritable_join hsome, ih, ihothers, namesProper_append]
  case nil => exact fun junction => by simp [allWritable, NamesProper]
  case cons =>
    intro junction words rest operand others ih ihothers
    rw [allWritable, Bool.and_eq_true, ih, ihothers,
      namesProper_cons (by cases junction <;> rfl), namesProper_append]

theorem isWritable_iff_of_isExpression {words : List Token} {expression : Expression}
    (h : IsExpression words expression) : expression.isWritable = true ↔ NamesProper words :=
  isWritable_iff_of_derived.2.1 h

/-! ### Reading what was written -/

variable {gap : ℕ → List Char} {expression : Expression} {text : String}

theorem parse_print_of_isWritable (hgap : ∀ i, ∀ c ∈ gap i, Text.isBlank c = true)
    (h : expression.isWritable = true) : parse (expression.print gap) = .ok expression := by
  have hexpression := isExpression_words h
  have hnames := (isWritable_iff_of_isExpression hexpression).mp h
  refine parse_eq_ok_iff.mpr ⟨expression.words, ?_, hexpression⟩
  rw [print, String.toList_ofList]
  exact spells_write hgap hnames hexpression.isChain_apart

theorem isWritable_of_parse (h : parse text = .ok expression) : expression.isWritable = true := by
  obtain ⟨words, hspells, hexpression⟩ := parse_eq_ok_iff.mp h
  exact (isWritable_iff_of_isExpression hexpression).mpr fun name => hspells.isName_of_mem

/-- Writing and reading are inverse: a tree that can be written is read back from its text, whatever
blanks stand between the words, and every tree that is read from a text can be written. -/
theorem parse_print (hgap : ∀ i, ∀ c ∈ gap i, Text.isBlank c = true) :
    (∀ expression : Expression, expression.isWritable = true →
      parse (expression.print gap) = .ok expression) ∧
    ∀ text expression, parse text = .ok expression →
      expression.isWritable = true ∧ parse (expression.print gap) = parse text := by
  refine ⟨fun expression => parse_print_of_isWritable hgap, fun text expression h => ?_⟩
  have hwritable := isWritable_of_parse h
  exact ⟨hwritable, (parse_print_of_isWritable hgap hwritable).trans h.symm⟩

/-- A blank before every other word. -/
def alternateGap (i : ℕ) : List Char :=
  if i % 2 = 0 then [' '] else []

/-- Operators of the same kind inside each other, and negations. -/
def choice : Expression :=
  .not (.any [.name "a", .any [.name "b", .not (.not (.name "c"))]])

theorem parse_print_choice : choice.print alternateGap = " !( a| (b |! !c )) " ∧
    parse " !( a| (b |! !c )) " = .ok choice := by
  have hgap (i : ℕ) : ∀ c ∈ alternateGap i, Text.isBlank c = true := by
    unfold alternateGap
    split
    · exact List.all_eq_true.mp rfl
    · exact List.forall_mem_nil _
  have hprint : choice.print alternateGap = " !( a| (b |! !c )) " := by decide +kernel
  refine ⟨hprint, ?_⟩
  rw [← hprint]
  exact (parse_print hgap).1 choice (by decide +kernel)

end Expression

end LayeredConfig
