import LayeredConfig.Proofs.Placeholder.Fixpoint
import Mathlib.Logic.Function.Iterate
import Mathlib.Order.Basic

/-!
# Texts that count as circular

A text is refused for one of two reasons. A value may hold the very reference that asks for it: then
the next pass brings that reference back, and so does every later one, so that the passes never come
to an end. Or the last pass that is made still changes the text. That is no proof of a cycle, since
defaults may hold one another to any depth, and chains of keys may have any length. What can be said
is that none of the texts that were looked at is settled, and this is the exact condition.

## Main definitions

* `HoldsItself`: a text refers to a value that holds the reference.

## Main results

* `HoldsItself.not_isSettled_iterate`: from such a text, no pass leads to a settled one.
* `settle_eq_none_iff`: the texts from which some passes do not lead to a settled one.
* `resolve_refuses_iff`: when a text is refused, and when passes without end would not help.
* `resolve_nested_eq_error_iff`: texts without any cycle that are refused.
-/

namespace LayeredConfig

namespace Placeholder

variable {lookup : String → Option String} {text : List Char}

/-- The text has a reference whose value holds that very reference. -/
def HoldsItself (lookup : String → Option String) (text : List Char) : Prop :=
  ∃ body value, .reference body ∈ pieces text ∧ lookup (Piece.key body) = some value ∧
    (Piece.reference body).written <:+: value.toList

theorem any_isSelfReference_iff :
    (pieces text).any (Piece.isSelfReference lookup) = true ↔ HoldsItself lookup text := by
  rw [List.any_eq_true]
  constructor
  · rintro ⟨piece, hpiece, hself⟩
    cases piece with
    | plain c => cases hself
    | reference body =>
      cases hvalue : lookup (Piece.key body) with
      | none => simp [Piece.isSelfReference, hvalue] at hself
      | some value =>
        simp only [Piece.isSelfReference, hvalue] at hself
        exact ⟨body, value, hpiece, hvalue, Text.contains_iff.mp hself⟩
  · rintro ⟨body, value, hpiece, hvalue, hheld⟩
    refine ⟨.reference body, hpiece, ?_⟩
    simp only [Piece.isSelfReference, hvalue]
    exact Text.contains_iff.mpr hheld

/-! ### Passes without end -/

/-- Without a dollar sign there is no reference. -/
theorem isSettled_of_notMem (h : '$' ∉ text) : IsSettled lookup text := by
  rintro before body after - rfl
  exact absurd (by simp [Piece.written]) h

theorem IsSettled.pass_eq (h : IsSettled lookup text) : pass lookup text = text :=
  (pass_eq_iff.mpr h).2

theorem HoldsItself.not_isSettled (h : HoldsItself lookup text) : ¬ IsSettled lookup text := by
  intro hsettled
  have hnone := (pass_eq_iff.mpr hsettled).1
  rw [any_isSelfReference_iff.mpr h] at hnone
  cases hnone

/-- The reference comes back with the value that stands for it. -/
theorem HoldsItself.pass (h : HoldsItself lookup text) : HoldsItself lookup (pass lookup text) := by
  obtain ⟨body, value, hpiece, hvalue, hheld⟩ := h
  have hbody : IsBody body := (mem_pieces_iff.mp hpiece).1
  have hexpansion : value.toList <:+: Placeholder.pass lookup text := by
    have hmem : (Piece.reference body).expansion lookup ∈
        (pieces text).map (Piece.expansion lookup) := List.mem_map_of_mem hpiece
    rw [Piece.expansion, hvalue] at hmem
    exact List.infix_of_mem_flatten hmem
  obtain ⟨before, after, htext⟩ := hheld.trans hexpansion
  refine ⟨body, value, mem_pieces_iff.mpr ⟨hbody, before, after, ?_⟩, hvalue, hheld⟩
  rw [← htext, List.append_assoc]

theorem HoldsItself.iterate (h : HoldsItself lookup text) (n : ℕ) :
    HoldsItself lookup ((Placeholder.pass lookup)^[n] text) := by
  induction n with
  | zero => exact h
  | succ n ih =>
    rw [Function.iterate_succ_apply']
    exact ih.pass

/-- From a text with such a reference, neither earlier nor later passes lead to a settled one. -/
theorem HoldsItself.not_isSettled_iterate {n : ℕ}
    (h : HoldsItself lookup ((Placeholder.pass lookup)^[n] text)) (m : ℕ) :
    ¬ IsSettled lookup ((Placeholder.pass lookup)^[m] text) := by
  rcases Nat.le_total n m with hle | hle
  · obtain ⟨k, rfl⟩ := Nat.exists_eq_add_of_le' hle
    rw [Function.iterate_add_apply]
    exact (h.iterate k).not_isSettled
  · -- A settled text stays as it is, so the later one would be settled, too.
    intro hsettled
    obtain ⟨k, rfl⟩ := Nat.exists_eq_add_of_le' hle
    rw [Function.iterate_add_apply, Function.iterate_fixed hsettled.pass_eq] at h
    exact h.not_isSettled hsettled

/-! ### A limited number of passes -/

/-- There is no text that some passes lead to iff none of the texts before them is settled. -/
theorem settle_eq_none_iff {passes : ℕ} : settle lookup passes text = none ↔
    ∀ n < passes, ¬ IsSettled lookup ((pass lookup)^[n] text) := by
  induction passes generalizing text with
  | zero => simp [settle]
  | succ passes ih =>
    rw [settle]
    split
    · next hself =>
      have hholds : HoldsItself lookup ((pass lookup)^[0] text) := any_isSelfReference_iff.mp hself
      exact ⟨fun _ n _ => hholds.not_isSettled_iterate n, fun _ => rfl⟩
    · next hself =>
      dsimp only
      split
      · next hpass =>
        have hsettled : IsSettled lookup text := pass_eq_iff.mp ⟨by simpa using hself, hpass⟩
        exact ⟨fun h => (Option.some_ne_none _ h).elim,
          fun h => absurd hsettled (h 0 (Nat.succ_pos passes))⟩
      · next hpass =>
        have hfirst : ¬ IsSettled lookup ((pass lookup)^[0] text) := fun h => hpass h.pass_eq
        rw [ih, Nat.forall_lt_succ_left]
        exact (and_iff_right hfirst).symm

theorem resolve_eq_error_iff {text : String} :
    resolve lookup text = .error (.circularPlaceholder text) ↔
      settle lookup maxPasses text.toList = none := by
  unfold resolve
  split
  · next settled hsettled => simp [hsettled]
  · next hnone => simp [hnone]

/-- A text is refused as circular iff it is not settled, and fewer passes than the limit do not make
it so. Where one of the texts that passes lead to holds a reference whose value holds the reference
again, no number of passes would. -/
theorem resolve_refuses_iff (lookup : String → Option String) (text : String) :
    (resolve lookup text = .error (.circularPlaceholder text) ↔
      ∀ n < maxPasses, ¬ IsSettled lookup ((pass lookup)^[n] text.toList)) ∧
    ((∃ n, HoldsItself lookup ((pass lookup)^[n] text.toList)) →
      ∀ n, ¬ IsSettled lookup ((pass lookup)^[n] text.toList)) := by
  refine ⟨resolve_eq_error_iff.trans settle_eq_none_iff, ?_⟩
  rintro ⟨n, hholds⟩
  exact hholds.not_isSettled_iterate

/-- A key whose value holds a reference to the key. -/
def ownKey (key : String) : Option String :=
  if key = "a" then some "x$\x7ba\x7d" else none

theorem resolve_refuses_ownKey :
    resolve ownKey "$\x7ba\x7d" = .error (.circularPlaceholder "$\x7ba\x7d") ∧
      ∀ n, ¬ IsSettled ownKey ((pass ownKey)^[n] "$\x7ba\x7d".toList) := by
  obtain ⟨hrefused, hnever⟩ := resolve_refuses_iff ownKey "$\x7ba\x7d"
  have hpiece : .reference ['a'] ∈ pieces "$\x7ba\x7d".toList :=
    mem_pieces_iff.mpr ⟨⟨List.cons_ne_nil _ _, List.all_eq_true.mp rfl⟩, [], [], rfl⟩
  have hnever := hnever ⟨0, ['a'], "x$\x7ba\x7d", hpiece, rfl, ['x'], [], rfl⟩
  exact ⟨hrefused.mpr fun n _ => hnever n, hnever⟩

/-! ### Defaults inside defaults -/

/-- References whose defaults hold the next one, to a given depth. -/
def nested : ℕ → List Char
  | 0 => ['x']
  | depth + 1 => '$' :: '{' :: 'a' :: ':' :: (nested depth ++ ['}'])

/-- No key has a value. -/
def nothing (_ : String) : Option String := none

private theorem pass_cons {c : Char} {rest : List Char} (h : takeReference (c :: rest) = none) :
    pass lookup (c :: rest) = c :: pass lookup rest := by
  unfold pass
  rw [pieces]
  split
  · next hsome => simp [h] at hsome
  · rfl

private theorem pass_reference {body rest : List Char}
    (h : takeReference text = some (body, rest)) :
    pass lookup text = (Piece.reference body).expansion lookup ++ pass lookup rest := by
  unfold pass
  rw [pieces]
  split
  · next hsome =>
    cases h.symm.trans hsome
    rfl
  · next hnone => simp [h] at hnone

private theorem takeReference_of_ne {c : Char} (h : c ≠ '$') (rest : List Char) :
    takeReference (c :: rest) = none := by
  simp [takeReference, h]

/-- A pass replaces the innermost reference by its default. -/
private theorem pass_nested_append (depth : ℕ) {rest : List Char} (h : '$' ∉ rest) :
    pass nothing (nested (depth + 1) ++ rest) = nested depth ++ rest := by
  induction depth generalizing rest with
  | zero =>
    have htake : takeReference (nested 1 ++ rest) = some (['a', ':', 'x'], rest) :=
      takeReference_eq_some_iff.mpr ⟨⟨List.cons_ne_nil _ _, List.all_eq_true.mp rfl⟩, rfl⟩
    rw [pass_reference htake, (isSettled_of_notMem h).pass_eq]
    rfl
  | succ depth ih =>
    have hsplit : nested (depth + 2) ++ rest =
        '$' :: '{' :: 'a' :: ':' :: (nested (depth + 1) ++ '}' :: rest) := by simp [nested]
    have hnone : takeReference ('$' :: '{' :: 'a' :: ':' :: (nested (depth + 1) ++ '}' :: rest)) =
        none := by
      simp [takeReference, nested, isBodyChar]
    rw [hsplit, pass_cons hnone, pass_cons (takeReference_of_ne (by decide) _),
      pass_cons (takeReference_of_ne (by decide) _), pass_cons (takeReference_of_ne (by decide) _),
      ih (by simp [h])]
    simp [nested]

private theorem pass_nested (depth : ℕ) : pass nothing (nested depth) = nested (depth - 1) := by
  cases depth with
  | zero => exact (isSettled_of_notMem (by decide)).pass_eq
  | succ depth => simpa using pass_nested_append depth (List.not_mem_nil (a := '$'))

private theorem iterate_nested (depth n : ℕ) :
    (pass nothing)^[n] (nested depth) = nested (depth - n) := by
  induction n with
  | zero => rfl
  | succ n ih => rw [Function.iterate_succ_apply', ih, pass_nested, Nat.sub_sub]

theorem isSettled_nested_iff {depth : ℕ} : IsSettled nothing (nested depth) ↔ depth = 0 := by
  constructor
  · intro h
    cases depth with
    | zero => rfl
    | succ depth =>
      have hlength := congrArg List.length ((pass_nested (depth + 1)).symm.trans h.pass_eq)
      simp only [nested, List.length_cons, List.length_append, Nat.add_sub_cancel] at hlength
      omega
  · rintro rfl
    exact isSettled_of_notMem (by decide)

/-- Each level takes a pass, and one more pass shows that nothing is left. -/
theorem resolve_nested_eq_error_iff {depth : ℕ} :
    resolve nothing (String.ofList (nested depth)) =
        .error (.circularPlaceholder (String.ofList (nested depth))) ↔ maxPasses ≤ depth := by
  rw [resolve_eq_error_iff, settle_eq_none_iff, String.toList_ofList]
  simp only [iterate_nested, isSettled_nested_iff, Nat.sub_eq_zero_iff_le, Nat.not_le]
  exact forall_lt_iff_le

/-- As many levels as there are passes are too many, although no key has a value and the passes lead
to a text without references. -/
theorem nested_refused :
    resolve nothing (String.ofList (nested 32)) =
        .error (.circularPlaceholder (String.ofList (nested 32))) ∧
      (pass nothing)^[32] (nested 32) = ['x'] ∧ IsSettled nothing ['x'] :=
  ⟨resolve_nested_eq_error_iff.mpr le_rfl, iterate_nested 32 32, isSettled_nested_iff.mpr rfl⟩

end Placeholder

end LayeredConfig
