import LayeredConfig.Text
import Mathlib.Data.List.TakeWhile

/-!
# What is left of a text

What cutting a text at a separator says about it, and what trimming leaves: a text that is trimmed
begins with a character that is not blank, if anything is left of it, so every item of a
comma-separated list has text. An index is written in decimal digits, which tell the index and hold
nothing but digits; names and keys that show an index next to another character can therefore be
taken apart again.

## Main results

* `Text.cutFirst_eq_some_iff`, `Text.cutFirst_eq_none_iff`: the first separator of a text.
* `Text.afterStart?_eq_some_iff`: what follows the start of a text.
* `Text.notMem_of_mem_splitOn`, `Text.mem_of_mem_splitOn`: what the parts of a text hold.
* `Text.exists_cons_of_trim_ne_nil`: the first character of a trimmed text is not blank.
* `Text.isAllBlank_of_mem_splitList`: the items of a list are not blank.
* `Text.notMem_toDigits`, `Text.toDigits_inj`: the digits of an index.
-/

namespace LayeredConfig.Text

variable {sep c : Char} {text before after start : List Char}

/-! ### Cutting -/

theorem cutFirst_eq_none_iff : cutFirst sep text = none ↔ sep ∉ text := by
  have hnone : sep ∉ text ↔ text.dropWhile (· != sep) = [] := by
    rw [List.dropWhile_eq_nil_iff]
    refine ⟨fun h c hc => by simpa using ne_of_mem_of_not_mem hc h, fun h hmem => ?_⟩
    simpa using h sep hmem
  rw [hnone, cutFirst]
  split
  · next h => simp [h]
  · next h => simp [h]

/-- The first separator splits a text at the only place before which there is none. -/
theorem cutFirst_eq_some_iff :
    cutFirst sep text = some (before, after) ↔ text = before ++ sep :: after ∧ sep ∉ before := by
  constructor
  · intro h
    unfold cutFirst at h
    split at h
    · cases h
    · next c rest hrest =>
      cases h
      have hc : c = sep := by
        have hfirst := List.head?_dropWhile_not (· != sep) text
        rw [hrest] at hfirst
        simpa using hfirst
      have htext := List.takeWhile_append_dropWhile (p := (· != sep)) (l := text)
      rw [hrest, hc] at htext
      exact ⟨htext.symm, fun hmem => by simpa using List.mem_takeWhile_imp hmem⟩
  · rintro ⟨rfl, hbefore⟩
    have hpass : ∀ c ∈ before, (c != sep) = true := by
      intro c hc
      simpa using ne_of_mem_of_not_mem hc hbefore
    rw [cutFirst, List.dropWhile_append_of_pos hpass, List.takeWhile_append_of_pos hpass]
    simp

theorem afterStart?_eq_some_iff : afterStart? start text = some after ↔ text = start ++ after := by
  induction start generalizing text with
  | nil => simp [afterStart?, eq_comm]
  | cons c start ih =>
    cases text with
    | nil => simp [afterStart?]
    | cons d text =>
      rw [afterStart?]
      split
      · next h => rw [ih, h, List.cons_append, List.cons.injEq, and_iff_right rfl]
      · next h => simp [Ne.symm h]

theorem notMem_of_mem_splitOn {part : List Char} (h : part ∈ text.splitOn sep) : sep ∉ part := by
  induction text generalizing part with
  | nil =>
    rw [List.splitOn_nil, List.mem_singleton] at h
    simp [h]
  | cons c text ih =>
    rw [List.splitOn_cons_eq_if_modifyHead] at h
    split at h
    · rcases List.mem_cons.mp h with rfl | h
      · simp
      · exact ih h
    · next hc =>
      cases hparts : text.splitOn sep with
      | nil => exact absurd hparts (List.splitOn_ne_nil sep text)
      | cons first others =>
        rw [hparts] at h ih
        rcases List.mem_cons.mp h with rfl | h
        · have hfirst : sep ∉ first := ih List.mem_cons_self
          exact List.not_mem_cons_of_ne_of_not_mem (fun h => hc (by simp [h])) hfirst
        · exact ih (List.mem_cons_of_mem _ h)

theorem mem_intercalate_iff {parts : List (List Char)} :
    c ∈ [sep].intercalate parts ↔ c = sep ∧ 1 < parts.length ∨ ∃ part ∈ parts, c ∈ part := by
  induction parts with
  | nil => simp
  | cons part parts ih =>
    cases parts with
    | nil => simp
    | cons next parts =>
      rw [List.intercalate_cons_cons, List.mem_append, ih]
      simp only [List.mem_append, List.length_cons, List.mem_cons]
      grind

theorem mem_of_mem_splitOn {part : List Char} (h : part ∈ text.splitOn sep)
    (hc : c ∈ part) : c ∈ text := by
  have hmem : c ∈ [sep].intercalate (text.splitOn sep) :=
    mem_intercalate_iff.mpr (.inr ⟨part, h, hc⟩)
  rwa [List.intercalate_splitOn] at hmem

/-! ### Trimming -/

/-- Trimming at the end stops at a character that is not blank. -/
theorem trimEnd_cons_of_not_isBlank (hc : isBlank c = false) (text : List Char) :
    trimEnd (c :: text) = c :: trimEnd text := by
  rw [trimEnd, List.reverse_cons, List.dropWhile_append, trimEnd]
  split
  · next hempty => simp [List.isEmpty_iff.mp hempty, hc]
  · simp

/-- What is left of a trimmed text begins with a character that is not blank. -/
theorem exists_cons_of_trim_ne_nil (h : trim text ≠ []) :
    ∃ c rest, trim text = c :: rest ∧ isBlank c = false := by
  cases hstart : trimStart text with
  | nil => exact absurd (by rw [trim, hstart]; rfl) h
  | cons c rest =>
    have hc : isBlank c = false := by
      have hhead := List.head?_dropWhile_not isBlank text
      rw [trimStart] at hstart
      simpa [hstart] using hhead
    exact ⟨c, trimEnd rest, by rw [trim, hstart, trimEnd_cons_of_not_isBlank hc], hc⟩

/-- The items of a comma-separated list have text. -/
theorem isAllBlank_of_mem_splitList {list item : String} (h : item ∈ splitList list) :
    isAllBlank item = false := by
  obtain ⟨chars, hchars, rfl⟩ := List.mem_map.mp h
  obtain ⟨hmem, hsome⟩ := List.mem_filter.mp hchars
  obtain ⟨part, -, rfl⟩ := List.mem_map.mp hmem
  have hne : trim part ≠ [] := by simpa using hsome
  obtain ⟨c, rest, htrim, hc⟩ := exists_cons_of_trim_ne_nil hne
  rw [isAllBlank, String.toList_ofList, htrim, List.all_cons, hc, Bool.false_and]

/-! ### Digits -/

theorem notMem_toDigits (hc : c.isDigit = false) (n : Nat) : c ∉ Nat.toDigits 10 n := by
  intro h
  have hdigit := Nat.isDigit_of_mem_toDigits (by decide) (by decide) h
  rw [hc] at hdigit
  cases hdigit

theorem toDigits_inj {m n : Nat} (h : Nat.toDigits 10 m = Nat.toDigits 10 n) : m = n := by
  have hvalue := congrArg (fun digits => Nat.ofDigitChars 10 digits 0) h
  simpa using hvalue

end LayeredConfig.Text
