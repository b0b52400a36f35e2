import LayeredConfig.Placeholder
import Mathlib.Data.List.TakeWhile

/-!
# Texts and their references

The pieces of a text, written one after the other, are the text. A body holds no dollar sign, so
references do not overlap: wherever a text has a reference that is innermost, that reference is one
of its pieces.

## Main definitions

* `IsBody`: the characters may stand in a reference as its body.

## Main results

* `takeReference_eq_some_iff`: what stands at the start of a text that begins with a reference.
* `flatMap_written_pieces`: the pieces of a text make up the text.
* `mem_pieces_iff`: the references among the pieces are those that occur in the text.
-/

namespace LayeredConfig

/-- One text occurs inside another. -/
theorem Text.contains_iff {part text : List Char} :
    Text.contains part text = true ↔ part <:+: text := by
  induction text with
  | nil => simp [Text.contains]
  | cons c text ih =>
    rw [Text.contains, Bool.or_eq_true, List.isPrefixOf_iff_prefix, ih, List.infix_cons_iff]

namespace Placeholder

variable {text body rest before after : List Char}

/-- The characters may stand in a reference as its body. -/
def IsBody (body : List Char) : Prop :=
  body ≠ [] ∧ ∀ c ∈ body, isBodyChar c = true

theorem IsBody.dollar_notMem (h : IsBody body) : '$' ∉ body :=
  fun hmem => absurd (h.2 '$' hmem) (by decide)

/-- A reference has its only dollar sign at its start. -/
private theorem dollar_notMem_tail (h : IsBody body) : '$' ∉ '{' :: body ++ ['}'] := by
  simp [h.dollar_notMem]

/-! ### The reference at the start of a text -/

/-- A text begins with a reference iff the reference is there and its body is one. -/
theorem takeReference_eq_some_iff : takeReference text = some (body, rest) ↔
    IsBody body ∧ text = (Piece.reference body).written ++ rest := by
  constructor
  · intro h
    unfold takeReference at h
    split at h
    · next text =>
      split at h
      · next c found left hfound hleft =>
        cases h
        have hbody (d : Char) (hd : d ∈ c :: found) : isBodyChar d = true := by
          rw [← hfound] at hd
          exact List.mem_takeWhile_imp hd
        refine ⟨⟨List.cons_ne_nil _ _, hbody⟩, ?_⟩
        rw [← List.takeWhile_append_dropWhile (p := isBodyChar) (l := text), hfound, hleft]
        simp [Piece.written]
      · cases h
    · cases h
  · rintro ⟨⟨hsome, hbody⟩, rfl⟩
    have hwritten : (Piece.reference body).written ++ rest =
        '$' :: '{' :: (body ++ '}' :: rest) := by simp [Piece.written]
    have htake : (body ++ '}' :: rest).takeWhile isBodyChar = body := by
      rw [List.takeWhile_append_of_pos hbody, List.takeWhile_cons_of_neg (by decide),
        List.append_nil]
    have hdrop : (body ++ '}' :: rest).dropWhile isBodyChar = '}' :: rest := by
      rw [List.dropWhile_append_of_pos hbody, List.dropWhile_cons_of_neg (by decide)]
    rw [hwritten, takeReference, htake, hdrop]
    obtain ⟨c, body, rfl⟩ := List.exists_cons_of_ne_nil hsome
    rfl

/-! ### The pieces of a text -/

/-- The pieces of a text make up the text. -/
theorem flatMap_written_pieces (text : List Char) :
    (pieces text).flatMap Piece.written = text := by
  fun_induction pieces text with
  | case1 text body rest h ih =>
    rw [List.flatMap_cons, ih]
    exact (takeReference_eq_some_iff.mp h).2.symm
  | case2 => rfl
  | case3 c rest h ih => rw [List.flatMap_cons, ih, Piece.written, List.singleton_append]

/-- The references among the pieces have a body. -/
private theorem isBody_of_mem_pieces (h : .reference body ∈ pieces text) : IsBody body := by
  fun_induction pieces text with
  | case1 text found rest hfound ih =>
    rcases List.mem_cons.mp h with heq | h
    · cases heq
      exact (takeReference_eq_some_iff.mp hfound).1
    · exact ih h
  | case2 => cases h
  | case3 c rest hnone ih => exact ih ((List.mem_cons.mp h).resolve_left (by simp))

/-- What follows a part without a dollar sign holds whatever begins with one. -/
private theorem exists_append_of_dollar {part : List Char} (hpart : '$' ∉ part)
    (h : part ++ rest = before ++ '$' :: after) :
    ∃ more, before = part ++ more ∧ rest = more ++ '$' :: after := by
  rcases List.append_eq_append_iff.mp h with ⟨more, hbefore, hrest⟩ | ⟨more, hsplit, hafter⟩
  · exact ⟨more, hbefore, hrest⟩
  · cases more with
    | nil => exact ⟨[], by simpa using hsplit.symm, by simpa using hafter.symm⟩
    | cons c more =>
      cases hafter
      exact absurd (hsplit ▸ List.mem_append_right _ List.mem_cons_self) hpart

/-- A reference that occurs in a text is one of its pieces. -/
private theorem mem_pieces_of_occurs (hbody : IsBody body)
    (h : text = before ++ ((Piece.reference body).written ++ after)) :
    .reference body ∈ pieces text := by
  fun_induction pieces text generalizing before with
  | case1 text found rest hfound ih =>
    obtain ⟨hisBody, htext⟩ := takeReference_eq_some_iff.mp hfound
    cases before with
    | nil =>
      rw [takeReference_eq_some_iff.mpr ⟨hbody, h⟩] at hfound
      cases hfound
      exact List.mem_cons_self
    | cons c before =>
      -- The reference at the start has no further dollar sign, so the other one comes after it.
      rw [htext] at h
      obtain ⟨-, htail⟩ := List.cons.inj h
      obtain ⟨more, -, hrest⟩ := exists_append_of_dollar (dollar_notMem_tail hisBody) htail
      exact List.mem_cons_of_mem _ (ih hrest)
  | case2 => simp [Piece.written] at h
  | case3 c rest hnone ih =>
    cases before with
    | nil =>
      rw [takeReference_eq_some_iff.mpr ⟨hbody, h⟩] at hnone
      cases hnone
    | cons d before =>
      obtain ⟨-, htail⟩ := List.cons.inj h
      exact List.mem_cons_of_mem _ (ih htail)

/-- The references among the pieces of a text are those that occur in it. -/
theorem mem_pieces_iff : .reference body ∈ pieces text ↔
    IsBody body ∧ ∃ before after, text = before ++ ((Piece.reference body).written ++ after) := by
  constructor
  · intro h
    obtain ⟨earlier, later, hsplit⟩ := List.append_of_mem h
    refine ⟨isBody_of_mem_pieces h, earlier.flatMap Piece.written, later.flatMap Piece.written, ?_⟩
    rw [← List.flatMap_cons, ← List.flatMap_append, ← hsplit, flatMap_written_pieces]
  · rintro ⟨hbody, before, after, h⟩
    exact mem_pieces_of_occurs hbody h

end Placeholder

end LayeredConfig
