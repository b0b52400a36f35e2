import LayeredConfig.Proofs.Profile.Words

/-!
# The grammar of expressions

An expression is an operand, or several operands joined by one operator:

* expression = operand | operand (`&` operand)+ | operand (`|` operand)+
* operand = `!` operand | `(` expression `)` | name

The readers follow these rules with one word to look at. An operand never goes on after its last
word, so what a reader has read does not depend on the words that follow, and further operands end
where no operator follows. Reading therefore finds exactly the trees that the rules derive, and a
text has at most one.

## Main definitions

* `IsOperand`, `IsExpression`, `AreFurther`: what the rules derive.

## Main results

* `derivation`: induction over all three kinds of derivations at once.
* `isExpression_of_gives`, `gives_of_derived`: the readers find what the rules derive.
* `parse_eq_ok_iff`: the texts that have a tree, and their trees.
-/

namespace LayeredConfig

namespace Expression

/-- The word of an operator. -/
def Junction.word : Junction → Token
  | and => .ampersand
  | or => .bar

theorem Junction.ofToken?_eq_some_iff {word : Token} {junction : Junction} :
    ofToken? word = some junction ↔ word = junction.word := by
  cases word <;> cases junction <;> simp [ofToken?, Junction.word]

/-! ### Derivations -/

mutual

/-- The words are an operand with the tree: a name, a negated operand, or an expression in
parentheses. -/
inductive IsOperand : List Token → Expression → Prop
  | name (text : String) : IsOperand [.name text] (.name text)
  | not {words : List Token} {operand : Expression} (h : IsOperand words operand) :
      IsOperand (.bang :: words) (.not operand)
  | group {words : List Token} {inner : Expression} (h : IsExpression words inner) :
      IsOperand (.leftParen :: (words ++ [.rightParen])) inner

/-- The words are an expression with the tree: an operand, or operands joined by one operator. -/
inductive IsExpression : List Token → Expression → Prop
  | operand {words : List Token} {operand : Expression} (h : IsOperand words operand) :
      IsExpression words operand
  | joined {words rest : List Token} {first : Expression} {others : List Expression}
      (junction : Junction) (hfirst : IsOperand words first)
      (hothers : AreFurther junction rest others) (hsome : others ≠ []) :
      IsExpression (words ++ rest) (junction.join (first :: others))

/-- The words are further operands with the trees, each of them after the operator. -/
inductive AreFurther : Junction → List Token → List Expression → Prop
  | nil (junction : Junction) : AreFurther junction [] []
  | cons {junction : Junction} {words rest : List Token} {operand : Expression}
      {others : List Expression} (h : IsOperand words operand)
      (hothers : AreFurther junction rest others) :
      AreFurther junction (junction.word :: (words ++ rest)) (operand :: others)

end

/-- What every rule keeps holds of all that the rules derive. -/
theorem derivation {P Q : List Token → Expression → Prop}
    {R : Junction → List Token → List Expression → Prop}
    (name : ∀ text, P [.name text] (.name text))
    (not : ∀ {words operand}, P words operand → P (.bang :: words) (.not operand))
    (group : ∀ {words inner}, Q words inner → P (.leftParen :: (words ++ [.rightParen])) inner)
    (operand : ∀ {words operand}, P words operand → Q words operand)
    (joined : ∀ {words rest first others} (junction : Junction), P words first →
      R junction rest others → others ≠ [] → Q (words ++ rest) (junction.join (first :: others)))
    (nil : ∀ junction, R junction [] [])
    (cons : ∀ {junction words rest operand others}, P words operand → R junction rest others →
      R junction (junction.word :: (words ++ rest)) (operand :: others)) :
    (∀ {words expression}, IsOperand words expression → P words expression) ∧
    (∀ {words expression}, IsExpression words expression → Q words expression) ∧
    ∀ {junction words others}, AreFurther junction words others → R junction words others := by
  refine ⟨fun h => ?_, fun h => ?_, fun h => ?_⟩
  · exact @IsOperand.rec (fun words tree _ => P words tree) (fun words tree _ => Q words tree)
      (fun junction words others _ => R junction words others) name (fun _ => not) (fun _ => group)
      (fun _ => operand) (fun _ _ _ hsome hfirst hothers => joined _ hfirst hothers hsome)
      nil (fun _ _ => cons) _ _ h
  · exact @IsExpression.rec (fun words tree _ => P words tree) (fun words tree _ => Q words tree)
      (fun junction words others _ => R junction words others) name (fun _ => not) (fun _ => group)
      (fun _ => operand) (fun _ _ _ hsome hfirst hothers => joined _ hfirst hothers hsome)
      nil (fun _ _ => cons) _ _ h
  · exact @AreFurther.rec (fun words tree _ => P words tree) (fun words tree _ => Q words tree)
      (fun junction words others _ => R junction words others) name (fun _ => not) (fun _ => group)
      (fun _ => operand) (fun _ _ _ hsome hfirst hothers => joined _ hfirst hothers hsome)
      nil (fun _ _ => cons) _ _ _ h

/-! ### What the readers give -/

/-- A reader gives a value and leaves the rest. -/
def Gives {α : Type} {p : List Token → Prop}
    (reading : Except ProfileFault (α × { rest : List Token // p rest })) (value : α)
    (rest : List Token) : Prop :=
  ∃ h, reading = .ok (value, ⟨rest, h⟩)

/-- The operator with which words begin. -/
def leading? (words : List Token) : Option Junction :=
  words.head?.bind Junction.ofToken?

section Readers

variable {words more rest : List Token} {operand inner first : Expression}
  {others : List Expression} {junction : Junction}

theorem gives_name (text : String) (rest : List Token) :
    Gives (readOperand (.name text :: rest)) (.name text) rest := by
  unfold readOperand
  exact ⟨_, rfl⟩

theorem gives_not (h : Gives (readOperand words) operand rest) :
    Gives (readOperand (.bang :: words)) (.not operand) rest := by
  obtain ⟨hlt, hread⟩ := h
  unfold readOperand
  rw [hread]
  exact ⟨_, rfl⟩

theorem gives_group (h : Gives (readJoined words) inner (.rightParen :: rest)) :
    Gives (readOperand (.leftParen :: words)) inner rest := by
  obtain ⟨hlt, hread⟩ := h
  unfold readOperand
  simp only [hread]
  exact ⟨_, rfl⟩

theorem gives_operand (h : Gives (readOperand words) operand rest) (hends : leading? rest = none) :
    Gives (readJoined words) operand rest := by
  obtain ⟨hlt, hread⟩ := h
  unfold leading? at hends
  unfold readJoined
  simp only [hread, hends]
  exact ⟨_, rfl⟩

theorem gives_joined (hfirst : Gives (readOperand words) first more)
    (hleads : leading? more = some junction)
    (hothers : Gives (readFurther junction more) others rest) :
    Gives (readJoined words) (junction.join (first :: others)) rest := by
  obtain ⟨hlt, hread⟩ := hfirst
  obtain ⟨hle, hfurther⟩ := hothers
  unfold leading? at hleads
  unfold readJoined
  simp only [hread, hleads, hfurther]
  exact ⟨_, rfl⟩

theorem gives_nil (hends : leading? rest = none) : Gives (readFurther junction rest) [] rest := by
  unfold readFurther
  cases rest with
  | nil => exact ⟨_, rfl⟩
  | cons word rest =>
    simp only [show Junction.ofToken? word = none from hends]
    exact ⟨_, rfl⟩

theorem gives_cons (h : Gives (readOperand words) operand more)
    (hothers : Gives (readFurther junction more) others rest) :
    Gives (readFurther junction (junction.word :: words)) (operand :: others) rest := by
  obtain ⟨hlt, hread⟩ := h
  obtain ⟨hle, hfurther⟩ := hothers
  unfold readFurther
  simp only [Junction.ofToken?_eq_some_iff.mpr rfl, ne_eq, not_true, if_false, hread, hfurther]
  exact ⟨_, rfl⟩

end Readers

/-- The readers find what the rules derive, whatever follows it. Where operands are joined, no
further operator may follow. -/
theorem gives_of_derived :
    (∀ {words operand}, IsOperand words operand →
      ∀ rest, Gives (readOperand (words ++ rest)) operand rest) ∧
    (∀ {words expression}, IsExpression words expression →
      ∀ rest, leading? rest = none → Gives (readJoined (words ++ rest)) expression rest) ∧
    ∀ {junction words others}, AreFurther junction words others →
      (∀ rest, leading? rest = none → Gives (readFurther junction (words ++ rest)) others rest) ∧
        (others ≠ [] → ∀ rest, leading? (words ++ rest) = some junction) := by
  apply derivation
  case name => exact gives_name
  case not => exact fun ih rest => gives_not (ih rest)
  case group =>
    intro words inner ih rest
    rw [List.cons_append, List.append_assoc]
    exact gives_group (ih (.rightParen :: rest) rfl)
  case operand => exact fun ih rest hends => gives_operand (ih rest) hends
  case joined =>
    intro words more first others junction ih ihothers hsome rest hends
    rw [List.append_assoc]
    exact gives_joined (ih (more ++ rest)) (ihothers.2 hsome rest) (ihothers.1 rest hends)
  case nil =>
    exact fun junction => ⟨fun rest hends => gives_nil hends, fun hsome => absurd rfl hsome⟩
  case cons =>
    intro junction words more operand others ih ihothers
    refine ⟨fun rest hends => ?_, fun _ rest => Junction.ofToken?_eq_some_iff.mpr rfl⟩
    rw [List.cons_append, List.append_assoc]
    exact gives_cons (ih (more ++ rest)) (ihothers.1 rest hends)

mutual

theorem isOperand_of_gives {words rest : List Token} {operand : Expression}
    (h : Gives (readOperand words) operand rest) :
    ∃ used, words = used ++ rest ∧ IsOperand used operand := by
  obtain ⟨hlt, h⟩ := h
  unfold readOperand at h
  split at h
  · next words =>
    split at h
    · cases h
    · next operand left hleft hread =>
      cases h
      obtain ⟨used, rfl, hused⟩ := isOperand_of_gives ⟨_, hread⟩
      exact ⟨.bang :: used, rfl, .not hused⟩
  · next words =>
    split at h
    · cases h
    · next inner left hleft hread =>
      cases h
      obtain ⟨used, rfl, hused⟩ := isExpression_of_gives ⟨_, hread⟩
      exact ⟨.leftParen :: (used ++ [.rightParen]), by simp, .group hused⟩
    · cases h
  · next text words =>
    cases h
    exact ⟨[.name text], rfl, .name text⟩
  · cases h
termination_by 2 * words.length

theorem isExpression_of_gives {words rest : List Token} {expression : Expression}
    (h : Gives (readJoined words) expression rest) :
    ∃ used, words = used ++ rest ∧ IsExpression used expression := by
  obtain ⟨hlt, h⟩ := h
  unfold readJoined at h
  split at h
  · cases h
  · next first more hmore hread =>
    obtain ⟨used, rfl, hused⟩ := isOperand_of_gives ⟨_, hread⟩
    split at h
    · cases h
      exact ⟨used, rfl, .operand hused⟩
    · next junction hleads =>
      split at h
      · cases h
      · next others left hleft hfurther =>
        cases h
        obtain ⟨later, rfl, hlater, hends⟩ := areFurther_of_gives ⟨_, hfurther⟩
        refine ⟨used ++ later, by rw [List.append_assoc], .joined junction hused hlater ?_⟩
        -- An operator was seen, so at least one operand was read after it.
        rintro rfl
        cases hlater
        cases hends.symm.trans hleads
termination_by 2 * words.length + 1

theorem areFurther_of_gives {junction : Junction} {words rest : List Token}
    {others : List Expression} (h : Gives (readFurther junction words) others rest) :
    ∃ used, words = used ++ rest ∧ AreFurther junction used others ∧ leading? rest = none := by
  obtain ⟨hle, h⟩ := h
  unfold readFurther at h
  split at h
  · cases h
    exact ⟨[], rfl, .nil junction, rfl⟩
  · next word words =>
    split at h
    · next hword =>
      cases h
      exact ⟨[], rfl, .nil junction, hword⟩
    · next other hword =>
      split at h
      · cases h
      · next hsame =>
        obtain rfl : word = junction.word := by
          rwa [Junction.ofToken?_eq_some_iff, not_not.mp hsame] at hword
        split at h
        · cases h
        · next operand more hmore hread =>
          obtain ⟨used, rfl, hused⟩ := isOperand_of_gives ⟨_, hread⟩
          split at h
          · cases h
          · next others left hleft hfurther =>
            cases h
            obtain ⟨later, rfl, hlater, hends⟩ := areFurther_of_gives ⟨_, hfurther⟩
            exact ⟨junction.word :: (used ++ later), by simp, .cons hused hlater, hends⟩
termination_by 2 * words.length

end

/-! ### Texts -/

variable {words : List Token} {expression : Expression} {text : String}

theorem ofTokens_eq_ok_iff : ofTokens words = .ok expression ↔ IsExpression words expression := by
  constructor
  · intro h
    unfold ofTokens at h
    split at h
    · cases h
    · split at h
      · cases h
      · next hread =>
        cases h
        obtain ⟨used, hsplit, hused⟩ := isExpression_of_gives ⟨_, hread⟩
        rwa [hsplit, List.append_nil]
      · cases h
  · intro h
    have hgives := gives_of_derived.2.1 h [] rfl
    rw [List.append_nil] at hgives
    obtain ⟨hlt, hread⟩ := hgives
    have hsome : words.isEmpty = false := List.isEmpty_eq_false_iff.mpr (List.length_pos_iff.mp hlt)
    simp [ofTokens, hsome, hread]

/-- The trees of a text are those that the rules derive from the words that it spells. -/
theorem parse_eq_ok_iff : parse text = .ok expression ↔
    ∃ words, Spells text.toList words ∧ IsExpression words expression := by
  have hspells (words : List Token) : Spells text.toList words ↔ words = tokens text.toList :=
    spells_iff.trans eq_comm
  simp only [hspells, exists_eq_left]
  rw [← ofTokens_eq_ok_iff, parse]
  split <;> simp [*]

/-- A text without a tree is refused, and the failure names it. -/
theorem exists_parse_eq_error_iff : (∃ fault, parse text = .error (.invalidProfile text fault)) ↔
    ¬ ∃ words expression, Spells text.toList words ∧ IsExpression words expression := by
  rw [exists_comm]
  simp only [← parse_eq_ok_iff]
  rw [parse]
  split <;> simp

end Expression

end LayeredConfig
