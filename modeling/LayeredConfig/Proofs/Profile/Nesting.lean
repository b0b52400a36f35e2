import LayeredConfig.Proofs.Profile.Grammar
import Mathlib.Algebra.Ring.Int.Defs

/-!
# What no expression looks like

Every parenthesis of an expression has its partner, two names never follow each other, and the
operators of one nesting level are the same. A text whose words break one of these rules, or that
has no words at all, is refused. The rules are what an operand and a row of further operands keep:
the operators of an operand all stand inside parentheses, and those of a row that do not are the
operator that joins it.

## Main definitions

* `depth`, `Balanced`: the parentheses that some words leave open, and words that leave none open.
* `Mixed`: words with two operators on one nesting level.

## Main results

* `IsExpression.balanced`, `IsExpression.not_mixed`, `IsExpression.isChain_apart`.
* `parse_exactly`: a text has the trees that the grammar derives for it, or else it is refused.
-/

namespace LayeredConfig

/-- How a word changes the number of open parentheses. -/
def Token.rise : Token → ℤ
  | leftParen => 1
  | rightParen => -1
  | _ => 0

namespace Expression

/-- The number of parentheses that the words open and do not close. -/
def depth : List Token → ℤ
  | [] => 0
  | word :: words => word.rise + depth words

/-- Every parenthesis of the words has its partner among them. -/
structure Balanced (words : List Token) : Prop where
  closed : depth words = 0
  nonneg {part : List Token} (h : part <+: words) : 0 ≤ depth part

/-- Two operators of one nesting level differ: between them, every parenthesis has its partner. -/
def Mixed (words : List Token) : Prop :=
  ∃ (before between after : List Token) (junction other : Junction), Balanced between ∧
    junction ≠ other ∧ words = before ++ junction.word :: (between ++ other.word :: after)

/-- All parentheses are closed, no operators are mixed, and those outside all parentheses are of
the given kind. -/
structure Leveled (kind : Junction → Prop) (words : List Token) : Prop where
  balanced : Balanced words
  outer {before after : List Token} {junction : Junction}
    (h : words = before ++ junction.word :: after) (hdepth : depth before = 0) : kind junction
  not_mixed : ¬ Mixed words

variable {words rest before after : List Token} {word : Token} {junction : Junction}
  {kind : Junction → Prop}

/-! ### Parentheses -/

@[simp] theorem depth_nil : depth [] = 0 := rfl

@[simp] theorem depth_cons (word : Token) (words : List Token) :
    depth (word :: words) = word.rise + depth words := rfl

@[simp] theorem depth_append (words rest : List Token) :
    depth (words ++ rest) = depth words + depth rest := by
  induction words with
  | nil => exact (zero_add _).symm
  | cons word words ih => rw [List.cons_append, depth_cons, depth_cons, ih, add_assoc]

@[simp] theorem rise_word (junction : Junction) : junction.word.rise = 0 := by
  cases junction <;> rfl

theorem balanced_nil : Balanced [] where
  closed := rfl
  nonneg hpart := by simp [List.prefix_nil.mp hpart]

theorem balanced_singleton (h : word.rise = 0) : Balanced [word] where
  closed := by simp [h]
  nonneg hpart := by
    rcases List.prefix_cons_iff.mp hpart with rfl | ⟨more, rfl, hmore⟩
    · simp
    · simp [List.prefix_nil.mp hmore, h]

/-- A prefix of two lists after each other ends in the first one or in the second one. -/
private theorem prefix_append_cases {part : List Token} (h : part <+: words ++ rest) :
    part <+: words ∨ ∃ more, more <+: rest ∧ part = words ++ more := by
  rcases List.prefix_or_prefix_of_prefix h (List.prefix_append words rest) with h' | ⟨more, rfl⟩
  · exact .inl h'
  · exact .inr ⟨more, (List.prefix_append_right_inj words).mp h, rfl⟩

theorem Balanced.append (hwords : Balanced words) (hrest : Balanced rest) :
    Balanced (words ++ rest) where
  closed := by rw [depth_append, hwords.closed, hrest.closed, add_zero]
  nonneg hpart := by
    rcases prefix_append_cases hpart with hpart | ⟨more, hmore, rfl⟩
    · exact hwords.nonneg hpart
    · rw [depth_append, hwords.closed, zero_add]
      exact hrest.nonneg hmore

theorem Balanced.group (h : Balanced words) :
    Balanced (.leftParen :: (words ++ [.rightParen])) where
  closed := by simp [h.closed, Token.rise]
  nonneg hpart := by
    rcases List.prefix_cons_iff.mp hpart with rfl | ⟨inner, rfl, hinner⟩
    · simp
    · rw [depth_cons, Token.rise]
      rcases prefix_append_cases hinner with hinner | ⟨more, hmore, rfl⟩
      · have hnonneg := h.nonneg hinner
        omega
      · rw [depth_append, h.closed]
        rcases List.prefix_cons_iff.mp hmore with rfl | ⟨last, rfl, hlast⟩
        · decide
        · simp [List.prefix_nil.mp hlast, Token.rise]

/-! ### Operators -/

/-- An operator is found behind another first word. -/
private theorem exists_of_cons_eq (hword : word ≠ junction.word)
    (h : word :: words = before ++ junction.word :: after) :
    ∃ more, before = word :: more ∧ words = more ++ junction.word :: after := by
  cases before with
  | nil => exact absurd (List.cons.inj h).1 hword
  | cons first more =>
    obtain ⟨rfl, hwords⟩ := List.cons.inj h
    exact ⟨more, rfl, hwords⟩

/-- An operator is found before another last word. -/
private theorem exists_of_concat_eq (hword : word ≠ junction.word)
    (h : words ++ [word] = before ++ junction.word :: after) :
    ∃ more, after = more ++ [word] ∧ words = before ++ junction.word :: more := by
  rcases List.eq_nil_or_concat after with rfl | ⟨more, last, rfl⟩
  · exact absurd (List.append_inj_right' h rfl) (by simpa using hword)
  · rw [List.concat_eq_append, ← List.cons_append, ← List.append_assoc] at h
    obtain ⟨hwords, hlast⟩ := List.append_inj' h rfl
    cases hlast
    exact ⟨more, List.concat_eq_append .., hwords⟩

/-- A word of two lists after each other stands in the first one or in the second one. -/
private theorem split_append (h : words ++ rest = before ++ word :: after) :
    (∃ more, words = before ++ word :: more ∧ after = more ++ rest) ∨
      ∃ more, before = words ++ more ∧ rest = more ++ word :: after := by
  rcases List.append_eq_append_iff.mp h with ⟨more, hbefore, hrest⟩ | ⟨more, hwords, hafter⟩
  · exact .inr ⟨more, hbefore, hrest⟩
  · cases more with
    | nil => exact .inr ⟨[], by simpa using hwords.symm, hafter.symm⟩
    | cons first more =>
      obtain ⟨hword, hmore⟩ := List.cons.inj hafter
      exact .inl ⟨more, hword ▸ hwords, hmore⟩

theorem Leveled.mono {kind' : Junction → Prop} (h : Leveled kind words)
    (hkind : ∀ junction, kind junction → kind' junction) : Leveled kind' words :=
  ⟨h.balanced, fun hsplit hdepth => hkind _ (h.outer hsplit hdepth), h.not_mixed⟩

/-- Operators of one nesting level stand in the same one of two lists after each other, or both of
them outside all parentheses. -/
theorem Leveled.append (hkind : ∀ junction other, kind junction → kind other → junction = other)
    (hwords : Leveled kind words) (hrest : Leveled kind rest) : Leveled kind (words ++ rest) where
  balanced := hwords.balanced.append hrest.balanced
  outer h hdepth := by
    rcases split_append h with ⟨more, hsplit, -⟩ | ⟨more, rfl, hsplit⟩
    · exact hwords.outer hsplit hdepth
    · rw [depth_append, hwords.balanced.closed, zero_add] at hdepth
      exact hrest.outer hsplit hdepth
  not_mixed := by
    rintro ⟨before, between, after, junction, other, hbetween, hne, h⟩
    rcases split_append h with ⟨more, hsplit, hmore⟩ | ⟨more, -, hsplit⟩
    · rcases split_append hmore.symm with ⟨later, rfl, -⟩ | ⟨later, rfl, hlater⟩
      · exact hwords.not_mixed ⟨before, between, later, junction, other, hbetween, hne, hsplit⟩
      · -- One operator stands in each list, and what is between them has no parenthesis open.
        have hbefore : 0 ≤ depth before := hwords.balanced.nonneg (hsplit ▸ List.prefix_append ..)
        have hmore : 0 ≤ depth more := hbetween.nonneg (List.prefix_append ..)
        have hclosed := hwords.balanced.closed
        have hzero := hbetween.closed
        rw [hsplit, depth_append, depth_cons, rise_word, zero_add] at hclosed
        rw [depth_append] at hzero
        refine hne (hkind junction other (hwords.outer hsplit ?_) (hrest.outer hlater ?_))
        · omega
        · omega
    · exact hrest.not_mixed ⟨more, between, after, junction, other, hbetween, hne, hsplit⟩

theorem leveled_nil : Leveled kind [] where
  balanced := balanced_nil
  outer h := by simp at h
  not_mixed := by
    rintro ⟨before, between, after, junction, other, -, -, h⟩
    simp at h

/-- A single word other than a parenthesis. -/
theorem leveled_singleton (hrise : word.rise = 0)
    (hkind : ∀ junction : Junction, word = junction.word → kind junction) :
    Leveled kind [word] where
  balanced := balanced_singleton hrise
  outer {before after junction} h _ := by
    obtain ⟨-, hword, -⟩ : before = [] ∧ junction.word = word ∧ after = [] := by
      simpa [List.singleton_eq_append_iff] using h
    exact hkind junction hword.symm
  not_mixed := by
    rintro ⟨before, between, after, junction, other, -, -, h⟩
    have hlength := congrArg List.length h
    simp only [List.length_append, List.length_cons, List.length_nil] at hlength
    omega

/-- In parentheses, no operator stands outside all parentheses. -/
theorem Leveled.group (h : Balanced words) (hmixed : ¬ Mixed words) :
    Leveled kind (.leftParen :: (words ++ [.rightParen])) where
  balanced := h.group
  outer {before after junction} hsplit hdepth := by
    have hleft : Token.leftParen ≠ junction.word := by cases junction <;> decide
    have hright : Token.rightParen ≠ junction.word := by cases junction <;> decide
    obtain ⟨more, rfl, hmore⟩ := exists_of_cons_eq hleft hsplit
    obtain ⟨later, -, hwords⟩ := exists_of_concat_eq hright hmore
    have hnonneg : 0 ≤ depth more := h.nonneg (hwords ▸ List.prefix_append ..)
    rw [depth_cons, Token.rise] at hdepth
    omega
  not_mixed := by
    rintro ⟨before, between, after, junction, other, hbetween, hne, hsplit⟩
    have hleft : Token.leftParen ≠ junction.word := by cases junction <;> decide
    have hright : Token.rightParen ≠ other.word := by cases other <;> decide
    obtain ⟨more, rfl, hmore⟩ := exists_of_cons_eq hleft hsplit
    rw [← List.cons_append, ← List.append_assoc] at hmore
    obtain ⟨later, -, hwords⟩ := exists_of_concat_eq hright hmore
    rw [List.append_assoc, List.cons_append] at hwords
    exact hmixed ⟨more, between, later, junction, other, hbetween, hne, hwords⟩

/-- What the rules derive has all parentheses closed and no operators mixed. -/
private theorem leveled_of_derived :
    (∀ {words operand}, IsOperand words operand → Leveled (fun _ => False) words) ∧
    (∀ {words expression}, IsExpression words expression → Balanced words ∧ ¬ Mixed words) ∧
    ∀ {junction words others}, AreFurther junction words others →
      Leveled (fun other => other = junction) words := by
  apply derivation
  case name =>
    exact fun text => leveled_singleton rfl fun junction h => by cases junction <;> cases h
  case not =>
    intro words operand ih
    have hbang : Leveled (fun _ => False) [.bang] :=
      leveled_singleton rfl fun junction h => by cases junction <;> cases h
    exact hbang.append (fun _ _ h => h.elim) ih
  case group => exact fun ih => .group ih.1 ih.2
  case operand => exact fun ih => ⟨ih.balanced, ih.not_mixed⟩
  case joined =>
    intro words rest first others junction ih ihothers _
    have hwords : Leveled (fun other => other = junction) words := ih.mono fun _ h => h.elim
    have hall := hwords.append (fun _ _ h h' => h.trans h'.symm) ihothers
    exact ⟨hall.balanced, hall.not_mixed⟩
  case nil => exact fun junction => leveled_nil
  case cons =>
    intro junction words rest operand others ih ihothers
    have hunique (other third : Junction) (h : other = junction) (h' : third = junction) :
        other = third := h.trans h'.symm
    have hword : Leveled (fun other => other = junction) [junction.word] :=
      leveled_singleton (rise_word junction) fun other h => by
        cases junction <;> cases other <;> first | rfl | cases h
    exact hword.append hunique ((ih.mono fun _ h => h.elim).append hunique ihothers)

theorem IsExpression.balanced {expression : Expression} (h : IsExpression words expression) :
    Balanced words :=
  (leveled_of_derived.2.1 h).1

theorem IsExpression.not_mixed {expression : Expression} (h : IsExpression words expression) :
    ¬ Mixed words :=
  (leveled_of_derived.2.1 h).2

/-! ### Names -/

/-- Where two parts of an expression meet, one of the words is no name. -/
private theorem isChain_of_derived :
    (∀ {words operand}, IsOperand words operand → words.IsChain Token.Apart) ∧
    (∀ {words expression}, IsExpression words expression → words.IsChain Token.Apart) ∧
    ∀ {junction words others}, AreFurther junction words others →
      words.IsChain Token.Apart ∧ ∀ word ∈ words.head?, word.isNamed = false := by
  apply derivation
  case name => exact fun text => .singleton _
  case not => exact fun ih => ih.cons fun _ _ => .inl rfl
  case group =>
    exact fun ih => (ih.append (.singleton _) fun _ _ _ hlast => by
      cases hlast
      exact .inr rfl).cons fun _ _ => .inl rfl
  case operand => exact fun ih => ih
  case joined =>
    exact fun _ ih ihothers _ =>
      ih.append ihothers.1 fun _ _ word hword => .inr (ihothers.2 word hword)
  case nil => exact fun junction => ⟨.nil, by simp⟩
  case cons =>
    intro junction words rest operand others ih ihothers
    have hword : junction.word.isNamed = false := by cases junction <;> rfl
    have hall := ih.append ihothers.1 fun _ _ word hword => .inr (ihothers.2 word hword)
    refine ⟨hall.cons fun _ _ => .inl hword, fun word hmem => ?_⟩
    cases hmem
    exact hword

/-- Two names never follow each other. -/
theorem IsExpression.isChain_apart {expression : Expression} (h : IsExpression words expression) :
    words.IsChain Token.Apart :=
  isChain_of_derived.2.1 h

/-! ### Texts -/

theorem not_isExpression_nil {expression : Expression} : ¬ IsExpression [] expression := by
  intro h
  obtain ⟨hlt, -⟩ := gives_of_derived.2.1 h [] rfl
  exact absurd hlt (Nat.lt_irrefl 0)

/-- A text has exactly the trees that the grammar derives from its words. Every other text is
refused with a failure that names it: one that is blank, one with a parenthesis that has no partner,
one in which two names follow each other, and one that mixes operators on one nesting level. -/
theorem parse_exactly (text : String) :
    (∀ expression, parse text = .ok expression ↔
      ∃ words, Spells text.toList words ∧ IsExpression words expression) ∧
    ((∃ fault, parse text = .error (.invalidProfile text fault)) ↔
      ¬ ∃ words expression, Spells text.toList words ∧ IsExpression words expression) ∧
    (Text.isAllBlank text = true ∨ (∃ words, Spells text.toList words ∧
        (¬ Balanced words ∨ ¬ words.IsChain Token.Apart ∨ Mixed words)) →
      ∃ fault, parse text = .error (.invalidProfile text fault)) := by
  refine ⟨fun expression => parse_eq_ok_iff, exists_parse_eq_error_iff, fun h => ?_⟩
  rw [exists_parse_eq_error_iff]
  rintro ⟨words, expression, hspells, hexpression⟩
  have hwords := spells_iff.mp hspells
  rcases h with hblank | ⟨others, hothers, hbad⟩
  · have hnone : Spells text.toList [] := by
      rw [← List.append_nil text.toList]
      exact Spells.nil.append_blank (List.all_eq_true.mp hblank)
    rw [← hwords, spells_iff.mp hnone] at hexpression
    exact not_isExpression_nil hexpression
  · rw [← hwords, spells_iff.mp hothers] at hexpression
    rcases hbad with hbad | hbad | hbad
    · exact hbad hexpression.balanced
    · exact hbad hexpression.isChain_apart
    · exact hexpression.not_mixed hbad

theorem parse_exactly_compound :
    parse "!a & (b|c)" = .ok (.all [.not (.name "a"), .any [.name "b", .name "c"]]) ∧
      ∃ fault, parse "a & b | c" = .error (.invalidProfile "a & b | c" fault) := by
  constructor
  · have hspells : Spells "!a & (b|c)".toList [.bang, .name "a", .ampersand, .leftParen, .name "b",
        .bar, .name "c", .rightParen] := spells_iff.mpr (by decide +kernel)
    have hinner : IsExpression [.name "b", .bar, .name "c"] (.any [.name "b", .name "c"]) :=
      .joined .or (.name "b") (.cons (.name "c") (.nil .or)) (List.cons_ne_nil _ _)
    have hexpression : IsExpression [.bang, .name "a", .ampersand, .leftParen, .name "b", .bar,
        .name "c", .rightParen] (.all [.not (.name "a"), .any [.name "b", .name "c"]]) :=
      .joined .and (.not (.name "a")) (.cons (.group hinner) (.nil .and)) (List.cons_ne_nil _ _)
    exact ((parse_exactly _).1 _).mpr ⟨_, hspells, hexpression⟩
  · have hspells : Spells "a & b | c".toList [.name "a", .ampersand, .name "b", .bar, .name "c"] :=
      spells_iff.mpr (by decide +kernel)
    have hmixed : Mixed [.name "a", .ampersand, .name "b", .bar, .name "c"] :=
      ⟨[.name "a"], [.name "b"], [.name "c"], .and, .or, balanced_singleton rfl, by decide, rfl⟩
    exact (parse_exactly _).2.2 (.inr ⟨_, hspells, .inr (.inr hmixed)⟩)

end Expression

end LayeredConfig
