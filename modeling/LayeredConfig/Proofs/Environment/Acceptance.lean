import LayeredConfig.Document
import LayeredConfig.Proofs.Environment.StoredNames
import LayeredConfig.Proofs.Profile.Grammar
import LayeredConfig.Proofs.Profile.Polarity

/-!
# Profile names as expressions

Documents are judged by the profiles that are active. A document that declares the name of a
profile has it read as an expression. Most names mean themselves there: those that hold no blank
character, no parenthesis and no operator. Yet a name may be activated as long as it is not blank
and does not begin with a mark. So there are names under which a profile can be active while a
document for it is not accepted, or makes the load fail.

## Main definitions

* `Profile.IsUsable`: a name is accepted wherever it is active.

## Main results

* `Environment.accepts_of_effective`, `Environment.accepts_name_iff`: what is accepted.
* `Expression.mem_tokens_of_mentions`: the names that an expression mentions are words of its text.
* `Profile.isUsable_iff`: the names that are accepted wherever they are active.
-/

namespace LayeredConfig

namespace Environment

variable {env : Environment} {active : List String}

/-! ### Active profiles -/

/-- Where some profiles are active, they are the ones that count. -/
theorem effective_of_active (hactive : env.active = .ok active) (hsome : active ≠ []) :
    env.effective = .ok active := by
  rw [effective, hactive]
  exact if_neg (by simpa using hsome)

theorem accepts_of_effective (h : env.effective = .ok active) (expressions : List String) :
    env.accepts expressions = someHolds active.contains expressions := by
  rw [accepts, h]
  rfl

/-- One expression is accepted iff it can be read and holds. -/
theorem accepts_singleton_iff {text : String} (h : env.effective = .ok active) :
    env.accepts [text] = .ok true ↔
      ∃ expression, Expression.parse text = .ok expression ∧
        expression.holds active.contains = true := by
  rw [accepts_of_effective h, someHolds, Failure.bind_eq_ok_iff]
  refine exists_congr fun expression => and_congr_right fun _ => ?_
  cases expression.holds active.contains <;> simp [someHolds, pure, Except.pure]

/-- A plain name is accepted iff it counts as active. -/
theorem accepts_name_iff {name : String} (hread : Expression.parse name = .ok (.name name))
    (h : env.effective = .ok active) : env.accepts [name] = .ok true ↔ name ∈ active := by
  simp [accepts_singleton_iff h, hread, Expression.holds]

/-- Environments in which the same profiles are active accept the same documents, as long as there
are some. -/
theorem accepts_eq_of_active {other : Environment} {others : List String}
    (hactive : env.active = .ok active) (hother : other.active = .ok others)
    (hsame : ∀ name, name ∈ active ↔ name ∈ others) (hsome : active ≠ []) :
    env.accepts = other.accepts := by
  obtain ⟨name, hname⟩ := List.exists_mem_of_ne_nil _ hsome
  have hothers : others ≠ [] := List.ne_nil_of_mem ((hsame name).mp hname)
  have hcontains : active.contains = others.contains := by
    funext name
    rw [Bool.eq_iff_iff, List.contains_iff_mem, List.contains_iff_mem]
    exact hsame name
  funext expressions
  rw [accepts_of_effective (effective_of_active hactive hsome),
    accepts_of_effective (effective_of_active hother hothers), hcontains]

end Environment

/-! ### Names in expressions -/

namespace Expression

/-- A name of the expression language means itself. -/
theorem parse_of_isName {name : String} (h : Token.isName name = true) :
    parse name = .ok (.name name) := by
  have hspells : Spells (name.toList ++ []) [.name name] := .name h (by simp) .nil
  rw [List.append_nil] at hspells
  exact parse_eq_ok_iff.mpr ⟨_, hspells, .operand (.name name)⟩

/-- The names that a tree mentions are among the words from which it is derived. -/
private theorem mentions_of_derived :
    (∀ {words operand}, IsOperand words operand →
      ∀ plainly name, operand.mentions plainly name = true → .name name ∈ words) ∧
    (∀ {words expression}, IsExpression words expression →
      ∀ plainly name, expression.mentions plainly name = true → .name name ∈ words) ∧
    ∀ {junction words others}, AreFurther junction words others →
      ∀ plainly name, anyMentions plainly name others = true → .name name ∈ words := by
  apply derivation
  case name =>
    intro text plainly name h
    rw [mentions, Bool.and_eq_true, beq_iff_eq] at h
    rw [h.2]
    exact List.mem_singleton_self _
  case not =>
    intro words operand ih plainly name h
    rw [mentions] at h
    exact List.mem_cons_of_mem _ (ih _ name h)
  case group =>
    intro words inner ih plainly name h
    exact List.mem_cons_of_mem _ (List.mem_append_left _ (ih _ name h))
  case operand => exact fun ih => ih
  case joined =>
    intro words rest first others junction ih ihothers _ plainly name h
    have hany : anyMentions plainly name (first :: others) = true := by
      cases junction <;> simpa only [Junction.join, mentions] using h
    rw [anyMentions, Bool.or_eq_true] at hany
    exact List.mem_append.mpr (hany.imp (ih _ name) (ihothers _ name))
  case nil => exact fun junction plainly name h => absurd h (by simp [anyMentions])
  case cons =>
    intro junction words rest operand others ih ihothers plainly name h
    rw [anyMentions, Bool.or_eq_true] at h
    exact List.mem_cons_of_mem _ (List.mem_append.mpr (h.imp (ih _ name) (ihothers _ name)))

/-- The names that an expression mentions are words of its text, and names of the language. -/
theorem mem_tokens_of_mentions {text name : String} {expression : Expression} {plainly : Bool}
    (hread : parse text = .ok expression) (h : expression.mentions plainly name = true) :
    .name name ∈ tokens text.toList ∧ Token.isName name = true := by
  obtain ⟨words, hspells, hexpression⟩ := parse_eq_ok_iff.mp hread
  have hmem := mentions_of_derived.2.1 hexpression plainly name h
  rw [spells_iff.mp hspells]
  exact ⟨hmem, hspells.isName_of_mem hmem⟩

end Expression

/-! ### Names that are accepted wherever they are active -/

namespace Profile

/-- Wherever the name is active it is accepted as an expression, and a document that declares it
alone takes part when a profile of the name is processed. -/
def IsUsable (name : String) : Prop :=
  ∀ env active, Environment.active env = .ok active → name ∈ active →
    env.accepts [name] = .ok true ∧
      ∀ document profile, Document.declared document = [name] → name? profile = some name →
        document.applies .positive profile env = .ok true

variable {name : String}

/-- The names of the expression language may be activated. -/
theorem validate_of_isName (h : Token.isName name = true) : validate name = .ok () := by
  obtain ⟨hsome, hchars⟩ := Token.isName_iff.mp h
  obtain ⟨c, rest, htext⟩ := List.exists_cons_of_ne_nil hsome
  obtain ⟨hsymbol, hblank⟩ := Token.isNameChar_iff.mp (hchars c (by simp [htext]))
  rw [validate_eq_ok_iff, Text.isAllBlank, htext]
  refine ⟨by simp [hblank], ?_⟩
  intro hmark
  cases hmark
  cases hsymbol

/-- Of the names among the words, those that are in a given set. -/
private def namesAmong (isActive : String → Bool) (words : List Token) : List String :=
  words.filterMap fun
    | .name other => if isActive other then some other else none
    | _ => none

private theorem mem_namesAmong {isActive : String → Bool} {words : List Token} {other : String} :
    other ∈ namesAmong isActive words ↔ .name other ∈ words ∧ isActive other = true := by
  rw [namesAmong, List.mem_filterMap]
  constructor
  · rintro ⟨word, hword, hsome⟩
    split at hsome
    · split at hsome
      · next hactive =>
        cases hsome
        exact ⟨hword, hactive⟩
      · cases hsome
    · cases hsome
  · rintro ⟨hword, hactive⟩
    exact ⟨_, hword, if_pos hactive⟩

/-- A name that is no name of the expression language and is accepted wherever it is active holds
whatever is active. -/
private theorem holds_of_isUsable (h : IsUsable name) (hname : ¬ Token.isName name = true) :
    ∃ expression, Expression.parse name = .ok expression ∧
      ∀ isActive, expression.holds isActive = true := by
  have haccepts (others : List String) : ∃ expression,
      Expression.parse name = .ok expression ∧
        expression.holds (name :: others).contains = true :=
    have hactive : ({ activeNames := name :: others } : Environment).active =
        .ok (name :: others) := rfl
    (Environment.accepts_singleton_iff
      (Environment.effective_of_active hactive (List.cons_ne_nil _ _))).mp
        (h _ _ hactive List.mem_cons_self).1
  obtain ⟨expression, hread, -⟩ := haccepts []
  refine ⟨expression, hread, fun isActive => ?_⟩
  -- The expression mentions finitely many names, and not the name itself.
  obtain ⟨again, hagain, hholds⟩ := haccepts (namesAmong isActive (tokens name.toList))
  cases hread.symm.trans hagain
  refine expression.holds_mono (fun other hmention hcounts => ?_) (fun other hmention hcounts => ?_)
    hholds
  · obtain ⟨-, hother⟩ := Expression.mem_tokens_of_mentions hread hmention
    rcases List.mem_cons.mp (List.contains_iff_mem.mp hcounts) with rfl | hmem
    · exact absurd hother hname
    · exact (mem_namesAmong.mp hmem).2
  · obtain ⟨hword, -⟩ := Expression.mem_tokens_of_mentions hread hmention
    exact List.contains_iff_mem.mpr
      (List.mem_cons_of_mem _ (mem_namesAmong.mpr ⟨hword, hcounts⟩))

/-- A name is accepted wherever it is active iff it is a name of the expression language, or reads
as an expression that holds whatever is active. The names of the language may all be activated. -/
theorem isUsable_iff (name : String) :
    (IsUsable name ↔ Token.isName name = true ∨
      ∃ expression, Expression.parse name = .ok expression ∧
        ∀ isActive, expression.holds isActive = true) ∧
    (Token.isName name = true → validate name = .ok ()) := by
  refine ⟨⟨fun h => or_iff_not_imp_left.mpr (holds_of_isUsable h), fun h => ?_⟩,
    validate_of_isName⟩
  intro env active hactive hmem
  have heffective := Environment.effective_of_active hactive (List.ne_nil_of_mem hmem)
  have haccepts : env.accepts [name] = .ok true := by
    rcases h with hname | ⟨expression, hread, hholds⟩
    · exact (Environment.accepts_name_iff (Expression.parse_of_isName hname) heffective).mpr hmem
    · exact (Environment.accepts_singleton_iff heffective).mpr ⟨expression, hread, hholds _⟩
  refine ⟨haccepts, fun document profile hdeclared hprofile => ?_⟩
  simpa [Document.applies, hprofile, hdeclared] using haccepts

/-- Without blanks and operators, a name is accepted wherever it is active. -/
theorem isUsable_dev : Token.isName "dev-eu.1" = true ∧ IsUsable "dev-eu.1" ∧
    validate "dev-eu.1" = .ok () := by
  have hname : Token.isName "dev-eu.1" = true := by decide +kernel
  exact ⟨hname, (isUsable_iff "dev-eu.1").1.mpr (.inl hname), (isUsable_iff "dev-eu.1").2 hname⟩

/-- A name with a blank between its words may be activated, but is no expression. -/
theorem not_isUsable_spaced :
    let env : Environment := { activeNames := ["dev local"] }
    validate "dev local" = .ok () ∧
      Environment.setActive {} ["dev local"] = .ok env ∧ env.active = .ok ["dev local"] ∧
      env.accepts ["dev local"] = .error (.invalidProfile "dev local" .malformedExpression) ∧
      ¬ IsUsable "dev local" := by
  intro env
  have hactive : env.active = .ok ["dev local"] := rfl
  have hrefused : env.accepts ["dev local"] =
      .error (.invalidProfile "dev local" .malformedExpression) := by
    decide +kernel
  refine ⟨by decide +kernel, by decide +kernel, hactive, hrefused, fun h => ?_⟩
  have haccepted := (h env _ hactive (List.mem_singleton_self _)).1
  rw [hrefused] at haccepted
  cases haccepted

end Profile

end LayeredConfig
