import LayeredConfig.Environment

/-!
# Names under a negation

Whether an expression holds depends on the names that it mentions. A name that is mentioned
plainly can only help by being active, and one that is mentioned under a negation can only help by
not being so. What counts is whether the negations around a mention cancel each other.

## Main definitions

* `Expression.mentions`: an expression mentions a name, plainly or under a negation.
* `Environment.someMentions`: so does some expression of a list.

## Main results

* `Environment.someHolds_iff`: when a list is accepted.
* `Environment.someHolds_mono`: a list stays accepted when the names that are mentioned plainly
  stay active and those under a negation stay inactive.
-/

namespace LayeredConfig

namespace Expression

mutual

/-- The expression mentions the name plainly, or else under a negation. -/
def mentions (plainly : Bool) (name : String) : Expression → Bool
  | .name text => plainly && text == name
  | .not operand => operand.mentions (!plainly) name
  | .all operands => anyMentions plainly name operands
  | .any operands => anyMentions plainly name operands

/-- Some expression of the list mentions the name. -/
def anyMentions (plainly : Bool) (name : String) : List Expression → Bool
  | [] => false
  | operand :: operands => operand.mentions plainly name || anyMentions plainly name operands

end

theorem anyMentions_cons_left {plainly : Bool} {name : String} {operand : Expression}
    (operands : List Expression) (h : operand.mentions plainly name = true) :
    anyMentions plainly name (operand :: operands) = true := by
  rw [anyMentions, h, Bool.true_or]

theorem anyMentions_cons_right {plainly : Bool} {name : String} {operands : List Expression}
    (operand : Expression) (h : anyMentions plainly name operands = true) :
    anyMentions plainly name (operand :: operands) = true := by
  rw [anyMentions, h, Bool.or_true]

mutual

/-- An expression keeps holding when the names that it mentions plainly stay active and those that
it mentions under a negation stay inactive. -/
theorem holds_mono {p q : String → Bool} (expression : Expression)
    (hplain : ∀ name, expression.mentions true name → p name → q name)
    (hnegated : ∀ name, expression.mentions false name → q name → p name)
    (h : expression.holds p = true) : expression.holds q = true := by
  match expression with
  | .name text => exact hplain text (by simp [mentions]) h
  | .not operand =>
    rw [holds, Bool.not_eq_true'] at h ⊢
    cases hholds : operand.holds q with
    | false => rfl
    | true =>
      -- Inside the negation the two kinds of mentions change places, and so do `p` and `q`.
      exact (holds_mono operand hnegated hplain hholds).symm.trans h
  | .all operands => exact allHold_mono operands hplain hnegated h
  | .any operands => exact anyHolds_mono operands hplain hnegated h

private theorem allHold_mono {p q : String → Bool} (operands : List Expression)
    (hplain : ∀ name, anyMentions true name operands → p name → q name)
    (hnegated : ∀ name, anyMentions false name operands → q name → p name)
    (h : allHold p operands = true) : allHold q operands = true := by
  match operands with
  | [] => rfl
  | operand :: operands =>
    rw [allHold, Bool.and_eq_true] at h ⊢
    constructor
    · exact holds_mono operand (fun name hname => hplain name (anyMentions_cons_left _ hname))
        (fun name hname => hnegated name (anyMentions_cons_left _ hname)) h.1
    · exact allHold_mono operands
        (fun name hname => hplain name (anyMentions_cons_right _ hname))
        (fun name hname => hnegated name (anyMentions_cons_right _ hname)) h.2

private theorem anyHolds_mono {p q : String → Bool} (operands : List Expression)
    (hplain : ∀ name, anyMentions true name operands → p name → q name)
    (hnegated : ∀ name, anyMentions false name operands → q name → p name)
    (h : anyHolds p operands = true) : anyHolds q operands = true := by
  match operands with
  | [] => cases h
  | operand :: operands =>
    rw [anyHolds, Bool.or_eq_true] at h ⊢
    refine h.imp (fun h => ?_) (fun h => ?_)
    · exact holds_mono operand (fun name hname => hplain name (anyMentions_cons_left _ hname))
        (fun name hname => hnegated name (anyMentions_cons_left _ hname)) h
    · exact anyHolds_mono operands
        (fun name hname => hplain name (anyMentions_cons_right _ hname))
        (fun name hname => hnegated name (anyMentions_cons_right _ hname)) h

end

end Expression

namespace Environment

variable {p q : String → Bool} {texts : List String}

/-- Some expression of the list mentions the name plainly, or else under a negation. -/
def someMentions (plainly : Bool) (name : String) (texts : List String) : Prop :=
  ∃ text ∈ texts, ∃ expression, Expression.parse text = .ok expression ∧
    expression.mentions plainly name = true

/-- A list is accepted iff some expression holds and those before it can be read. -/
theorem someHolds_iff : someHolds p texts = .ok true ↔
    ∃ before text after expression, texts = before ++ text :: after ∧
      (∀ other ∈ before, ∃ read, Expression.parse other = .ok read) ∧
      Expression.parse text = .ok expression ∧ expression.holds p = true := by
  induction texts with
  | nil => simp [someHolds]
  | cons text texts ih =>
    rw [someHolds, Failure.bind_eq_ok_iff]
    constructor
    · rintro ⟨expression, hread, hholds⟩
      split at hholds
      · next hfirst => exact ⟨[], text, texts, expression, rfl, by simp, hread, hfirst⟩
      · obtain ⟨before, other, after, found, rfl, hbefore, hother, hfound⟩ := ih.mp hholds
        refine ⟨text :: before, other, after, found, rfl, fun first hfirst => ?_, hother, hfound⟩
        rcases List.mem_cons.mp hfirst with rfl | hfirst
        · exact ⟨expression, hread⟩
        · exact hbefore first hfirst
    · rintro ⟨before, other, after, found, hsplit, hbefore, hother, hfound⟩
      cases before with
      | nil =>
        obtain ⟨rfl, rfl⟩ := List.cons.inj hsplit
        exact ⟨found, hother, by rw [if_pos hfound]; rfl⟩
      | cons first before =>
        obtain ⟨rfl, rfl⟩ := List.cons.inj hsplit
        obtain ⟨expression, hread⟩ := hbefore text List.mem_cons_self
        refine ⟨expression, hread, ?_⟩
        split
        · rfl
        · refine ih.mpr ⟨before, other, after, found, rfl, fun later hlater => ?_, hother, hfound⟩
          exact hbefore later (List.mem_cons_of_mem _ hlater)

/-- A list stays accepted when the names that it mentions plainly stay active and those that it
mentions under a negation stay inactive. -/
theorem someHolds_mono (hplain : ∀ name, someMentions true name texts → p name → q name)
    (hnegated : ∀ name, someMentions false name texts → q name → p name)
    (h : someHolds p texts = .ok true) : someHolds q texts = .ok true := by
  obtain ⟨before, text, after, expression, rfl, hbefore, hread, hholds⟩ := someHolds_iff.mp h
  have hmentions {plainly : Bool} {name : String}
      (hname : expression.mentions plainly name = true) :
      someMentions plainly name (before ++ text :: after) :=
    ⟨text, by simp, expression, hread, hname⟩
  refine someHolds_iff.mpr ⟨before, text, after, expression, rfl, hbefore, hread, ?_⟩
  exact expression.holds_mono (fun name hname => hplain name (hmentions hname))
    (fun name hname => hnegated name (hmentions hname)) hholds

/-- A list that can be read is accepted when it has the name of an active profile. -/
theorem someHolds_of_name {name : String} (hname : name ∈ texts)
    (hread : Expression.parse name = .ok (.name name))
    (htexts : ∀ text ∈ texts, ∃ expression, Expression.parse text = .ok expression)
    (hactive : p name = true) : someHolds p texts = .ok true := by
  obtain ⟨before, after, rfl⟩ := List.append_of_mem hname
  refine someHolds_iff.mpr ⟨before, name, after, .name name, rfl, fun other hother => ?_, hread, ?_⟩
  · exact htexts other (List.mem_append_left _ hother)
  · exact hactive

end Environment

end LayeredConfig
