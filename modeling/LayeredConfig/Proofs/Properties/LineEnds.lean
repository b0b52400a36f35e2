import LayeredConfig.Proofs.Properties.Definitions
import LayeredConfig.Proofs.Text

/-!
# Line ends in a properties text

A carriage return that no line feed follows ends a natural line, but it does not end a line of a
text in general. Where there is no such carriage return, both ways of cutting lines agree, apart
from a last line that is empty, and the column is looked up on the natural line on which a
definition begins.

## Main definitions

* `Properties.NoLoneReturn`: every carriage return is followed by a line feed.

## Main results

* `Properties.naturalLines_append_end`, `Properties.ends_no_line_of_mem_naturalLines`: where a
  natural line ends.
* `Properties.naturalLines_eq_lines`: the natural lines are the lines.
* `Properties.column_eq_iff`: the column is that of a key that begins with no blank.
-/

namespace LayeredConfig.Properties

/-- Every carriage return is followed by a line feed. -/
def NoLoneReturn : List Char → Prop
  | [] => True
  | c :: text => (c = '\r' → text.head? = some '\n') ∧ NoLoneReturn text

instance decidableNoLoneReturn : (text : List Char) → Decidable (NoLoneReturn text)
  | [] => inferInstanceAs (Decidable True)
  | _ :: text =>
    have := decidableNoLoneReturn text
    inferInstanceAs (Decidable (_ ∧ _))

theorem NoLoneReturn.of_append {before after : List Char} (h : NoLoneReturn (before ++ after)) :
    NoLoneReturn after := by
  induction before with
  | nil => exact h
  | cons c before ih => exact ih h.2

/-- A part of the text without a line feed ends no line, unless its last character is a carriage
return and a line feed follows. -/
theorem NoLoneReturn.ends_no_line {front rest : List Char} (h : NoLoneReturn (front ++ rest))
    (hfeed : '\n' ∉ front) (hlast : front.getLast? = some '\r' → rest.head? ≠ some '\n') :
    ∀ c ∈ front, c ≠ '\r' ∧ c ≠ '\n' := by
  refine fun c hc => ⟨?_, fun heq => hfeed (heq ▸ hc)⟩
  rintro rfl
  obtain ⟨before, after, rfl⟩ := List.append_of_mem hc
  rw [List.append_assoc] at h
  have hnext : (after ++ rest).head? = some '\n' := h.of_append.1 rfl
  rcases after with _ | ⟨d, after⟩
  · exact hlast List.getLast?_concat hnext
  · obtain rfl : d = '\n' := Option.some_inj.mp hnext
    exact hfeed (by simp)

/-- Characters that end no line stand in front of the first natural line. -/
theorem naturalLines_append {front : List Char} (h : ∀ c ∈ front, c ≠ '\r' ∧ c ≠ '\n')
    (text : List Char) :
    naturalLines (front ++ text) = (naturalLines text).modifyHead (front ++ ·) := by
  induction front with
  | nil => exact (congrFun List.modifyHead_id _).symm
  | cons c front ih =>
    rw [List.cons_append, naturalLines_cons (h c List.mem_cons_self),
      ih fun d hd => h d (List.mem_cons_of_mem _ hd), List.modifyHead_modifyHead]
    rfl

/-- A natural line of characters that end no line, with each of the line ends that can follow it: a
line feed, a carriage return and a line feed, and a carriage return before anything else. -/
theorem naturalLines_append_end {front : List Char} (h : ∀ c ∈ front, c ≠ '\r' ∧ c ≠ '\n')
    (rest : List Char) :
    naturalLines (front ++ '\n' :: rest) = front :: naturalLines rest ∧
    naturalLines (front ++ '\r' :: '\n' :: rest) = front :: naturalLines rest ∧
    (rest.head? ≠ some '\n' →
      naturalLines (front ++ '\r' :: rest) = front :: naturalLines rest) := by
  rw [naturalLines_append h, naturalLines_append h, naturalLines_append h]
  have hfront : front ++ [] = front := List.append_nil front
  refine ⟨congrArg (· :: naturalLines rest) hfront, congrArg (· :: naturalLines rest) hfront,
    fun hrest => ?_⟩
  have hreturn : naturalLines ('\r' :: rest) = [] :: naturalLines rest := by
    rw [naturalLines, linesAfter, if_pos (.inl rfl)]
    · rfl
    · rintro other - rfl
      exact hrest rfl
  rw [hreturn, List.modifyHead_cons, hfront]

/-- A natural line holds no line end, if what is in front of the text holds none. -/
theorem ends_no_line_of_mem {line text found : List Char} (hline : ∀ c ∈ line, c ≠ '\r' ∧ c ≠ '\n')
    (h : found ∈ linesAfter line text) : ∀ c ∈ found, c ≠ '\r' ∧ c ≠ '\n' := by
  have hnone : ∀ c ∈ ([] : List Char), c ≠ '\r' ∧ c ≠ '\n' := fun _ hc => absurd hc List.not_mem_nil
  fun_induction linesAfter line text with
  | case1 line =>
    obtain rfl := List.mem_singleton.mp h
    exact fun c hc => hline c (List.mem_reverse.mp hc)
  | case2 line text ih =>
    obtain rfl | h := List.mem_cons.mp h
    · exact fun c hc => hline c (List.mem_reverse.mp hc)
    · exact ih hnone h
  | case3 line c text hpair hend ih =>
    obtain rfl | h := List.mem_cons.mp h
    · exact fun c hc => hline c (List.mem_reverse.mp hc)
    · exact ih hnone h
  | case4 line c text hpair hend ih =>
    exact ih (List.forall_mem_cons.mpr ⟨not_or.mp hend, hline⟩) h

/-- No natural line holds a line end. -/
theorem ends_no_line_of_mem_naturalLines {text found : List Char} (h : found ∈ naturalLines text) :
    ∀ c ∈ found, c ≠ '\r' ∧ c ≠ '\n' :=
  ends_no_line_of_mem (fun _ hc => absurd hc List.not_mem_nil) h

/-- The line in front of the first line feed is the first natural line, once it has lost the
carriage return at its end. -/
theorem naturalLines_of_feed {line rest : List Char} (h : NoLoneReturn (line ++ '\n' :: rest))
    (hline : '\n' ∉ line) : naturalLines (line ++ '\n' :: rest) =
      (if line.getLast? = some '\r' then line.dropLast else line) :: naturalLines rest := by
  by_cases hlast : line.getLast? = some '\r'
  · obtain ⟨front, rfl⟩ := List.getLast?_eq_some_iff.mp hlast
    rw [if_pos hlast, List.dropLast_concat, List.append_assoc, List.singleton_append]
    rw [List.append_assoc] at h
    have hfront : '\n' ∉ front := fun hmem => hline (List.mem_append_left _ hmem)
    have hplain := h.ends_no_line hfront fun _ => by simp
    exact (naturalLines_append_end hplain rest).2.1
  · rw [if_neg hlast]
    have hplain := h.ends_no_line hline fun hreturn => absurd hreturn hlast
    exact (naturalLines_append_end hplain rest).1

/-- Where every carriage return is followed by a line feed, the natural lines are the lines of the
text, and perhaps an empty last line. -/
theorem naturalLines_eq_lines {text : List Char} (h : NoLoneReturn text) :
    naturalLines text = Text.lines text ∨ naturalLines text = Text.lines text ++ [[]] := by
  fun_induction Text.lines text with
  | case1 text hcut hempty =>
    rw [List.isEmpty_iff.mp hempty]
    exact .inr rfl
  | case2 text hcut hempty =>
    have hfeed := Text.cutFirst_eq_none_iff.mp hcut
    rw [← List.append_nil text] at h ⊢
    rw [naturalLines_append (h.ends_no_line hfeed fun _ => by simp)]
    exact .inl rfl
  | case3 text line rest hcut ih =>
    obtain ⟨rfl, hline⟩ := Text.cutFirst_eq_some_iff.mp hcut
    rw [naturalLines_of_feed h hline]
    obtain heq | heq := ih h.of_append.2
    · exact .inl (by rw [heq])
    · exact .inr (by rw [heq, List.cons_append])

/-! ### The column of a definition -/

theorem isBlank_of_isSpace {c : Char} (h : isSpace c = true) : Text.isBlank c = true := by
  simp only [isSpace, Bool.or_eq_true, decide_eq_true_eq] at h
  obtain (((rfl | rfl) | rfl) | rfl) | rfl := h <;> rfl

/-- The column is looked up on the natural line with the number. -/
theorem column_eq {text : List Char} (h : NoLoneReturn text) {number : Nat} (hnumber : 0 < number)
    (hline : lineAt text number ≠ []) : column (Text.lines text) number =
      ((margin text number ++ lineAt text number).takeWhile Text.isBlank).length + 1 := by
  obtain ⟨index, rfl⟩ := Nat.exists_eq_succ_of_ne_zero hnumber.ne'
  have hget : (Text.lines text)[index]? =
      some (margin text (index + 1) ++ lineAt text (index + 1)) := by
    cases hnatural : (naturalLines (withoutMark text))[index]? with
    | none =>
      rw [lineAt, Nat.succ_sub_one, hnatural, Option.getD_none] at hline
      exact absurd rfl hline
    | some line =>
      rw [lineAt_of_getElem? hnatural] at hline ⊢
      have hwhole := getElem?_naturalLines text index
      rw [hnatural, Option.map_some] at hwhole
      obtain heq | heq := naturalLines_eq_lines h
      · rw [← heq, hwhole]
      · rw [heq, List.getElem?_append] at hwhole
        split_ifs at hwhole
        · exact hwhole
        · -- Only the empty last line is missing.
          have hempty := List.mem_singleton.mp (List.mem_of_getElem? hwhole)
          exact absurd (List.append_eq_nil_iff.mp hempty).2 hline
  rw [column, hget]
  rfl

theorem margin_eq {text : List Char} {number : Nat} (h : margin text number ≠ []) :
    margin text number = ['\uFEFF'] := by
  rw [margin, mark] at h ⊢
  split_ifs at h ⊢
  · rfl
  · exact absurd rfl h
  · exact absurd rfl h

/-- Behind the spaces at the start of a line, the column is right unless the mark stands in front of
the line or another blank follows. -/
theorem column_eq_iff {text : List Char} (h : NoLoneReturn text) {number : Nat}
    (hnumber : 0 < number) {c : Char}
    (hfirst : ((lineAt text number).dropWhile isSpace).head? = some c) :
    column (Text.lines text) number =
        (margin text number).length + 1 + indent (lineAt text number) ↔
      margin text number = [] ∧ Text.isBlank c = false := by
  have hline : lineAt text number ≠ [] := by
    intro hnil
    rw [hnil] at hfirst
    cases hfirst
  rw [column_eq h hnumber hline]
  obtain ⟨rest, hrest⟩ := List.head?_eq_some_iff.mp hfirst
  have hsplit : lineAt text number = (lineAt text number).takeWhile isSpace ++ c :: rest := by
    rw [← hrest, List.takeWhile_append_dropWhile]
  have hspaces : ∀ d ∈ (lineAt text number).takeWhile isSpace, Text.isBlank d = true :=
    fun d hd => isBlank_of_isSpace (List.mem_takeWhile_imp hd)
  by_cases hmargin : margin text number = []
  · have hlength : ((lineAt text number).takeWhile Text.isBlank).length =
        indent (lineAt text number) + ((c :: rest).takeWhile Text.isBlank).length := by
      rw [indent, ← List.length_append, ← List.takeWhile_append_of_pos hspaces, ← hsplit]
    rw [hmargin, List.nil_append, hlength, List.takeWhile_cons]
    by_cases hblank : Text.isBlank c = true
    · rw [if_pos hblank, List.length_cons, List.length_nil, hblank]
      exact iff_of_false (by omega) fun hright => absurd hright.2 (by simp)
    · rw [if_neg hblank, List.length_nil]
      exact iff_of_true (by omega) ⟨rfl, Bool.eq_false_iff.mpr hblank⟩
  · -- The mark is no blank, so the column is the first one.
    have hmark := margin_eq hmargin
    rw [hmark, List.singleton_append, List.takeWhile_cons_of_neg (by decide)]
    exact iff_of_false (by rw [List.length_nil, List.length_singleton]; omega) (by simp)

end LayeredConfig.Properties
