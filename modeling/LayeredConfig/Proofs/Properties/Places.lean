import LayeredConfig.Properties
import Mathlib.Data.List.TakeWhile

/-!
# Places in a properties text

Every character of a text stands on a natural line and in a column of it, both counted from one, the
mark at the start of the text included. To say where a key stands, the natural lines are joined once
more, this time with characters that carry their places. Forgetting the places gives the joined
lines that are read.

## Main definitions

* `Properties.Placed`: a character with its place.
* `Properties.placedLogicalLines`: the joined lines of a text, with the places of their characters.

## Main results

* `Properties.map_plain_placedLogicalLines`: without the places, these are the joined lines.
* `Properties.FromLines.stands`: the text has each character at its place.
* `Properties.mem_joinPlaced`: where a joined line begins and where its characters come from.
* `Properties.exists_natural_of_mem`: the number of a joined line is that of a natural line.
-/

namespace LayeredConfig.Properties

/-- A character with the line and the column where it stands. -/
structure Placed where
  char : Char
  line : Nat
  column : Nat
  deriving DecidableEq, Repr

/-- The characters without their places. -/
def chars (line : List Placed) : List Char :=
  line.map Placed.char

/-! ### The places of a text -/

/-- The mark at the start of a text, if there is one. -/
def mark (text : List Char) : List Char :=
  if text.head? = some '\uFEFF' then ['\uFEFF'] else []

/-- What stands in front of the natural line with a number when the line is read: the mark, if it is
the first line. -/
def margin (text : List Char) (number : Nat) : List Char :=
  if number = 1 then mark text else []

/-- The characters of a line with their places, from a column on. -/
def place (number column : Nat) : List Char → List Placed
  | [] => []
  | c :: line => ⟨c, number, column⟩ :: place number (column + 1) line

/-- The characters of lines with their places. The first line has the given number and begins in the
given column, the others begin in the first column. -/
def placeLines (number column : Nat) : List (List Char) → List (List Placed)
  | [] => []
  | line :: lines => place number column line :: placeLines (number + 1) 1 lines

/-- The natural lines of a text without the mark, their characters with the places where they stand
in the text. -/
def placedLines (text : List Char) : List (List Placed) :=
  placeLines 1 ((mark text).length + 1) (naturalLines (withoutMark text))

/-- The character that stands on a natural line of a text, in a column. -/
def charAt? (text : List Char) : Nat → Nat → Option Char
  | line + 1, column + 1 => (naturalLines text)[line]?.bind fun found => found[column]?
  | _, _ => none

/-! ### Joined lines -/

/-- A joined line whose characters carry their places, and the number of the natural line on which
it begins. -/
structure PlacedLine where
  number : Nat
  text : List Placed

/-- The joined line without the places. -/
def PlacedLine.plain (line : PlacedLine) : Line :=
  ⟨line.number, chars line.text⟩

/-- A natural line without the blanks at its start. -/
def trimmedStart (next : List Placed) : List Placed :=
  next.dropWhile fun placed => Text.isBlank placed.char

/-- The joined line with one more natural line: a line that is begun goes on without the blanks in
front of the next, and without one, the next begins a line of its own. -/
def extend (begun : Option PlacedLine) (number : Nat) (next : List Placed) : PlacedLine :=
  match begun with
  | none => ⟨number, next⟩
  | some line => ⟨line.number, line.text ++ trimmedStart next⟩

/-- The joined line goes on after the natural line. A comment that begins with it does not. -/
def goesOn (begun : Option PlacedLine) (next : List Placed) : Bool :=
  continues (chars next) && (begun.isSome || !isComment (chars next))

/-- Joins natural lines as `joinLines` does; their characters keep their places. -/
def joinPlaced (begun : Option PlacedLine) (number : Nat) : List (List Placed) → List PlacedLine
  | [] => []
  | next :: others =>
    let joined := extend begun number next
    if goesOn begun next then
      joinPlaced (some ⟨joined.number, joined.text.dropLast⟩) (number + 1) others
    else joined :: joinPlaced none (number + 1) others

/-- The joined lines of a text, their characters with the places where they stand in it. -/
def placedLogicalLines (text : List Char) : List PlacedLine :=
  joinPlaced none 1 (placedLines text)

/-! ### Forgetting the places -/

@[simp] theorem chars_place (number column : Nat) (line : List Char) :
    chars (place number column line) = line := by
  induction line generalizing column with
  | nil => rfl
  | cons c line ih => exact congrArg (c :: ·) (ih (column + 1))

@[simp] theorem map_chars_placeLines (number column : Nat) (lines : List (List Char)) :
    (placeLines number column lines).map chars = lines := by
  induction lines generalizing number column with
  | nil => rfl
  | cons line lines ih => rw [placeLines, List.map_cons, chars_place, ih]

theorem chars_dropLast (line : List Placed) : chars line.dropLast = (chars line).dropLast :=
  List.map_dropLast

theorem chars_dropWhile (p : Char → Bool) (line : List Placed) :
    chars (line.dropWhile fun placed => p placed.char) = (chars line).dropWhile p := by
  rw [chars, chars, List.dropWhile_map]
  rfl

theorem chars_append (line other : List Placed) :
    chars (line ++ other) = chars line ++ chars other :=
  List.map_append

/-- Joining does not look at the places. -/
theorem map_plain_joinPlaced (begun : Option PlacedLine) (number : Nat)
    (lines : List (List Placed)) :
    (joinPlaced begun number lines).map PlacedLine.plain =
      joinLines (begun.map PlacedLine.plain) number (lines.map chars) := by
  induction lines generalizing begun number with
  | nil => rfl
  | cons next others ih =>
    rw [joinPlaced, List.map_cons, goesOn]
    cases begun with
    | none =>
      rw [Option.map_none, joinLines, Option.isSome_none, Bool.false_or]
      cases isComment (chars next) <;> cases continues (chars next) <;>
        simp [ih, extend, PlacedLine.plain, chars_dropLast]
    | some line =>
      have hjoined : chars (line.text ++ trimmedStart next) =
          chars line.text ++ Text.trimStart (chars next) := by
        rw [chars_append, trimmedStart, chars_dropWhile, Text.trimStart]
      rw [Option.map_some, joinLines, Option.isSome_some, Bool.true_or, Bool.and_true]
      cases continues (chars next) <;>
        simp [ih, extend, PlacedLine.plain, chars_dropLast, hjoined]

/-- Without the places, these are the joined lines of the text. -/
theorem map_plain_placedLogicalLines (text : List Char) :
    (placedLogicalLines text).map PlacedLine.plain = logicalLines (withoutMark text) := by
  rw [placedLogicalLines, map_plain_joinPlaced, placedLines, map_chars_placeLines]
  rfl

/-! ### The places are those of the text -/

theorem mark_append (text : List Char) : mark text ++ withoutMark text = text := by
  by_cases hmark : text.head? = some '\uFEFF'
  · obtain ⟨rest, rfl⟩ := List.head?_eq_some_iff.mp hmark
    rfl
  · rw [mark, if_neg hmark, List.nil_append, withoutMark]
    rintro rest rfl
    exact hmark rfl

theorem linesAfter_append (line front text : List Char) : linesAfter (line ++ front) text =
    (linesAfter line text).modifyHead (front.reverse ++ ·) := by
  fun_induction linesAfter line text with
  | case1 line => simp [linesAfter]
  | case2 line text ih => simp [linesAfter]
  | case3 line c text hpair hend ih =>
    rw [linesAfter, if_pos hend, List.modifyHead_cons, List.reverse_append]
    exact hpair
  | case4 line c text hpair hend ih =>
    rw [linesAfter, if_neg hend, ← List.cons_append, ih]
    exact hpair

/-- A character that ends no line stands in front of the first natural line. -/
theorem naturalLines_cons {c : Char} (hc : c ≠ '\r' ∧ c ≠ '\n') (text : List Char) :
    naturalLines (c :: text) = (naturalLines text).modifyHead (c :: ·) := by
  have hnext := linesAfter_append [] [c] text
  rw [naturalLines, linesAfter, if_neg (by simp [hc])]
  · exact hnext
  · rintro rest rfl
    exact absurd rfl hc.1

/-- With the mark in front of their first line, the natural lines are those of the whole text. -/
theorem naturalLines_eq_modifyHead (text : List Char) :
    naturalLines text = (naturalLines (withoutMark text)).modifyHead (mark text ++ ·) := by
  have htext : naturalLines text = naturalLines (mark text ++ withoutMark text) := by
    rw [mark_append]
  rw [htext, mark]
  split
  · exact naturalLines_cons (by decide) _
  · rw [List.nil_append]
    exact (congrFun List.modifyHead_id _).symm

theorem getElem?_place (number column : Nat) (found : List Char) (index : Nat) :
    (place number column found)[index]? =
      found[index]?.map fun c => ⟨c, number, column + index⟩ := by
  induction found generalizing column index with
  | nil => rfl
  | cons c found ih =>
    rw [place]
    cases index with
    | zero => rfl
    | succ index => rw [List.getElem?_cons_succ, List.getElem?_cons_succ, ih, Nat.add_right_comm,
        Nat.add_assoc]

theorem getElem?_placeLines (number column : Nat) (lines : List (List Char)) (index : Nat) :
    (placeLines number column lines)[index]? =
      lines[index]?.map (place (number + index) (if index = 0 then column else 1)) := by
  induction lines generalizing number column index with
  | nil => rfl
  | cons line lines ih =>
    rw [placeLines]
    cases index with
    | zero => rfl
    | succ index =>
      rw [List.getElem?_cons_succ, List.getElem?_cons_succ, ih, if_neg (Nat.succ_ne_zero index),
        ite_self, Nat.add_right_comm, Nat.add_assoc]

/-- A natural line of the text has the margin in front of what is read. -/
theorem getElem?_naturalLines (text : List Char) (index : Nat) :
    (naturalLines text)[index]? =
      (naturalLines (withoutMark text))[index]?.map (margin text (index + 1) ++ ·) := by
  rw [naturalLines_eq_modifyHead, List.getElem?_modifyHead]
  cases index with
  | zero => rfl
  | succ index => simp [margin]

theorem getElem?_placedLines (text : List Char) (index : Nat) :
    (placedLines text)[index]? = (naturalLines (withoutMark text))[index]?.map
      (place (index + 1) ((margin text (index + 1)).length + 1)) := by
  rw [placedLines, getElem?_placeLines, Nat.add_comm 1 index]
  cases index with
  | zero => rfl
  | succ index => simp [margin]

/-! ### Where joined lines begin -/

/-- The characters come from the lines, from the one at an index on. -/
def FromLines (lines : List (List Placed)) (index : Nat) (rest : List Placed) : Prop :=
  ∀ placed ∈ rest, ∃ later next, index ≤ later ∧ lines[later]? = some next ∧ placed ∈ next

theorem FromLines.cons {lines : List (List Placed)} {index : Nat} {rest : List Placed}
    (h : FromLines lines index rest) (first : List Placed) :
    FromLines (first :: lines) (index + 1) rest := by
  intro placed hplaced
  obtain ⟨later, next, hle, hnext, hmem⟩ := h placed hplaced
  exact ⟨later + 1, next, Nat.succ_le_succ hle, by rwa [List.getElem?_cons_succ], hmem⟩

theorem FromLines.weaken {lines : List (List Placed)} {index : Nat} {rest : List Placed}
    (h : FromLines lines (index + 1) rest) : FromLines lines index rest := by
  intro placed hplaced
  obtain ⟨later, next, hle, hnext, hmem⟩ := h placed hplaced
  exact ⟨later, next, Nat.le_of_succ_le hle, hnext, hmem⟩

theorem FromLines.append {lines : List (List Placed)} {index : Nat} {rest more : List Placed}
    (h : FromLines lines index rest) (h' : FromLines lines index more) :
    FromLines lines index (rest ++ more) :=
  fun placed hplaced => (List.mem_append.mp hplaced).elim (h placed) (h' placed)

theorem fromLines_of_subset {lines : List (List Placed)} {index : Nat} {next rest : List Placed}
    (hnext : lines[index]? = some next) (h : rest ⊆ next) : FromLines lines index rest :=
  fun _ hplaced => ⟨index, next, Nat.le_refl index, hnext, h hplaced⟩

/-- The text has the characters of its lines at their places. -/
theorem FromLines.stands {text : List Char} {index : Nat} {rest : List Placed} {placed : Placed}
    (h : FromLines (placedLines text) index rest) (hplaced : placed ∈ rest) :
    index < placed.line ∧ charAt? text placed.line placed.column = some placed.char := by
  obtain ⟨later, next, hle, hnext, hmem⟩ := h placed hplaced
  rw [getElem?_placedLines] at hnext
  obtain ⟨found, hfound, rfl⟩ := Option.map_eq_some_iff.mp hnext
  obtain ⟨j, hj⟩ := List.mem_iff_getElem?.mp hmem
  rw [getElem?_place] at hj
  obtain ⟨c, hc, rfl⟩ := Option.map_eq_some_iff.mp hj
  refine ⟨Nat.lt_succ_of_le hle, ?_⟩
  dsimp only
  rw [Nat.add_right_comm, charAt?, getElem?_naturalLines, hfound, Option.map_some,
    Option.bind_some, List.getElem?_append_right (Nat.le_add_right _ _), Nat.add_sub_cancel_left,
    hc]

/-- The joined line begins with the natural line at an index. If it goes on, the backslash at the
end of that line is gone, and the other characters come from later lines. -/
def BeginsAt (lines : List (List Placed)) (index : Nat) (line : PlacedLine) : Prop :=
  ∃ next, lines[index]? = some next ∧
    if goesOn none next then
      ∃ rest, line.text = next.dropLast ++ rest ∧ FromLines lines (index + 1) rest
    else line.text = next

theorem BeginsAt.cons {lines : List (List Placed)} {index : Nat} {line : PlacedLine}
    (h : BeginsAt lines index line) (first : List Placed) :
    BeginsAt (first :: lines) (index + 1) line := by
  obtain ⟨next, hnext, hline⟩ := h
  refine ⟨next, by rwa [List.getElem?_cons_succ], ?_⟩
  split_ifs at hline ⊢
  · obtain ⟨rest, htext, hrest⟩ := hline
    exact ⟨rest, htext, hrest.cons first⟩
  · exact hline

theorem BeginsAt.fromLines {lines : List (List Placed)} {index : Nat} {line : PlacedLine}
    (h : BeginsAt lines index line) : FromLines lines index line.text := by
  obtain ⟨next, hnext, hline⟩ := h
  split_ifs at hline
  · obtain ⟨rest, htext, hrest⟩ := hline
    rw [htext]
    exact (fromLines_of_subset hnext (List.dropLast_subset next)).append hrest.weaken
  · exact fromLines_of_subset hnext (hline ▸ List.Subset.refl _)

/-- A line that goes on ends in a backslash. -/
theorem exists_eq_concat_of_continues {line : List Char} (h : continues line = true) :
    ∃ front, line = front ++ ['\\'] := by
  rcases List.eq_nil_or_concat line with rfl | ⟨front, last, rfl⟩
  · cases h
  · refine ⟨front, ?_⟩
    by_cases hlast : last = '\\'
    · rw [hlast, List.concat_eq_append]
    · simp [continues, hlast] at h

/-- What is left of a line that goes on without the blanks at its start. -/
theorem trimmedStart_ne_nil {next : List Placed} (h : continues (chars next) = true) :
    trimmedStart next ≠ [] := by
  obtain ⟨front, hfront⟩ := exists_eq_concat_of_continues h
  intro hnil
  have hblank : Text.isBlank '\\' = true := by
    have hall := List.dropWhile_eq_nil_iff.mp
      ((chars_dropWhile Text.isBlank next).symm.trans (congrArg chars hnil))
    exact hall '\\' (by simp [hfront])
  exact absurd hblank (by decide)

/-- A joined line is the one that was begun, with characters of the lines, or it begins with one of
the lines. -/
theorem mem_joinPlaced {begun : Option PlacedLine} {number : Nat} {lines : List (List Placed)}
    {line : PlacedLine} (h : line ∈ joinPlaced begun number lines) :
    (∃ first, begun = some first ∧ line.number = first.number ∧
      ∃ rest, line.text = first.text ++ rest ∧ FromLines lines 0 rest) ∨
    ∃ index, line.number = number + index ∧ BeginsAt lines index line := by
  -- The begun line is general: it changes with every line that goes on.
  induction lines generalizing begun number with
  | nil => exact absurd h List.not_mem_nil
  | cons next others ih =>
    have hlater (hnone : line ∈ joinPlaced none (number + 1) others) :
        ∃ index, line.number = number + index ∧ BeginsAt (next :: others) index line := by
      obtain ⟨first, hfirst, -⟩ | ⟨index, hnumber, hbegins⟩ := ih hnone
      · cases hfirst
      · exact ⟨index + 1, by omega, hbegins.cons next⟩
    rw [joinPlaced] at h
    cases begun with
    | none =>
      refine .inr ?_
      split_ifs at h with hgoes
      · obtain ⟨_, ⟨⟩, hnumber, rest, htext, hrest⟩ | ⟨index, hnumber, hbegins⟩ := ih h
        · refine ⟨0, hnumber, next, rfl, ?_⟩
          rw [if_pos hgoes]
          exact ⟨rest, htext, hrest.cons next⟩
        · exact ⟨index + 1, by omega, hbegins.cons next⟩
      · obtain rfl | h := List.mem_cons.mp h
        · refine ⟨0, rfl, next, rfl, ?_⟩
          rw [if_neg hgoes]
          rfl
        · exact hlater h
    | some first =>
      split_ifs at h with hgoes
      · have hne := trimmedStart_ne_nil (Bool.and_eq_true_iff.mp hgoes).1
        obtain ⟨_, ⟨⟩, hnumber, rest, htext, hrest⟩ | ⟨index, hnumber, hbegins⟩ := ih h
        · have hlast : FromLines (next :: others) 0 (trimmedStart next).dropLast :=
            fromLines_of_subset rfl (List.Subset.trans (List.dropLast_subset _)
              (List.dropWhile_subset _))
          refine .inl ⟨first, rfl, hnumber, (trimmedStart next).dropLast ++ rest, ?_, ?_⟩
          · rw [htext, extend, List.dropLast_append_of_ne_nil hne, List.append_assoc]
          · exact hlast.append (hrest.cons next).weaken
        · exact .inr ⟨index + 1, by omega, hbegins.cons next⟩
      · obtain rfl | h := List.mem_cons.mp h
        · exact .inl ⟨first, rfl, rfl, _, rfl, fromLines_of_subset rfl (List.dropWhile_subset _)⟩
        · exact .inr (hlater h)

/-- A joined line has the number of the natural line on which it begins, counted from one. It is
that line, or goes on behind it, without the backslash at its end. -/
theorem exists_natural_of_mem {text : List Char} {line : Line} (h : line ∈ logicalLines text) :
    0 < line.number ∧ ∃ natural, (naturalLines text)[line.number - 1]? = some natural ∧
      if continues natural && !isComment natural then natural.dropLast <+: line.text
      else line.text = natural := by
  -- It does not matter here in which column a line begins.
  have hplaces := map_plain_joinPlaced none 1 (placeLines 1 1 (naturalLines text))
  rw [map_chars_placeLines] at hplaces
  change _ = logicalLines text at hplaces
  rw [← hplaces] at h
  obtain ⟨placed, hplaced, rfl⟩ := List.mem_map.mp h
  -- Nothing is begun in front of the first line.
  obtain ⟨_, ⟨⟩, -⟩ | ⟨index, hnumber, next, hnext, hbegins⟩ := mem_joinPlaced hplaced
  rw [getElem?_placeLines, ite_self] at hnext
  obtain ⟨natural, hnatural, rfl⟩ := Option.map_eq_some_iff.mp hnext
  rw [goesOn, chars_place, Option.isSome_none, Bool.false_or] at hbegins
  have hpos : 0 < placed.number := by omega
  refine ⟨hpos, natural, ?_, ?_⟩
  · rw [PlacedLine.plain, hnumber, Nat.add_sub_cancel_left, hnatural]
  · split_ifs at hbegins ⊢
    · obtain ⟨rest, htext, -⟩ := hbegins
      refine ⟨chars rest, ?_⟩
      rw [PlacedLine.plain, htext, chars_append, chars_dropLast, chars_place]
    · rw [PlacedLine.plain, hbegins, chars_place]

end LayeredConfig.Properties
