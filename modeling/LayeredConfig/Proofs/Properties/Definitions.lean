import LayeredConfig.Proofs.Properties.Places

/-!
# Where keys stand in a properties text

A definition begins on the natural line on which its joined line begins. Its key stands there, too,
behind the spaces at the start, unless that line is bare: where it holds nothing but spaces and the
backslash by which it goes on, the key stands on a line further down.

## Main definitions

* `Properties.definitions`: the keys that a text defines, each with its first character.
* `Properties.IsBare`: a natural line that only goes on.
* `Properties.DefinedIn`: what is known of the first character of a key.

## Main results

* `Properties.content_append`: the spaces at the start of a line are skipped.
* `Properties.definedIn_of_mem`: every definition of a text has these properties.
* `Properties.map_place_entries`: the entries of a text are its definitions.
-/

namespace LayeredConfig.Properties

/-! ### Definitions -/

/-- A definition of a key in a text. -/
structure Definition where
  /-- The natural line on which the joined line of the definition begins. -/
  number : Nat
  /-- The key as it is written. -/
  written : List Char
  /-- The first character of the key as it is written, where it stands in the text. For an empty
  key, this is the sign that separates it from the value. -/
  first : Placed
  deriving DecidableEq, Repr

/-- The key that a joined line defines, if it does. -/
def PlacedLine.definition? (line : PlacedLine) : Option (String × Definition) :=
  let text := line.text.dropWhile fun placed => isSpace placed.char
  match content line.plain.text, text.head? with
  | some (.pair key _), some first =>
    some (String.ofList key, { number := line.number, written := (cutKey (chars text)).1, first })
  | _, _ => none

/-- The definitions of a text, in order. -/
def definitions (text : List Char) : List (String × Definition) :=
  (placedLogicalLines text).filterMap PlacedLine.definition?

/-! ### The natural line on which a definition begins -/

/-- The natural line with a number, counted from one, as it is read. -/
def lineAt (text : List Char) (number : Nat) : List Char :=
  ((naturalLines (withoutMark text))[number - 1]?).getD []

theorem lineAt_of_getElem? {text line : List Char} {index : Nat}
    (h : (naturalLines (withoutMark text))[index]? = some line) :
    lineAt text (index + 1) = line := by
  rw [lineAt, Nat.add_sub_cancel, h, Option.getD_some]

/-- The number of spaces at the start of a line. -/
def indent (line : List Char) : Nat :=
  (line.takeWhile isSpace).length

/-- The line holds nothing but spaces and the backslash by which it goes on. -/
def IsBare (line : List Char) : Prop :=
  line.dropWhile isSpace = ['\\']

instance (line : List Char) : Decidable (IsBare line) :=
  inferInstanceAs (Decidable (_ = _))

theorem dropLast_place (number column : Nat) (line : List Char) :
    (place number column line).dropLast = place number column line.dropLast := by
  induction line generalizing column with
  | nil => rfl
  | cons c line ih =>
    cases line with
    | nil => rfl
    | cons d line => exact congrArg (_ :: ·) (ih (column + 1))

theorem dropWhile_place (number column : Nat) (line : List Char) :
    ((place number column line).dropWhile fun placed => isSpace placed.char) =
      place number (column + indent line) (line.dropWhile isSpace) := by
  induction line generalizing column with
  | nil => rfl
  | cons c line ih =>
    rw [place, List.dropWhile_cons, List.dropWhile_cons, indent, List.takeWhile_cons]
    split
    · rw [ih, List.length_cons, ← Nat.add_assoc, Nat.add_right_comm, indent]
    · rfl

theorem head?_place (number column : Nat) (line : List Char) :
    (place number column line).head? = line.head?.map fun c => ⟨c, number, column⟩ := by
  cases line <;> rfl

/-- The backslash at the end of a line is not one of the spaces at its start. -/
theorem dropWhile_concat (front : List Char) :
    (front ++ ['\\']).dropWhile isSpace = front.dropWhile isSpace ++ ['\\'] := by
  rw [List.dropWhile_append]
  split
  · next hempty =>
    rw [List.isEmpty_iff.mp hempty]
    rfl
  · rfl

theorem indent_concat (front : List Char) : indent (front ++ ['\\']) = indent front := by
  rw [indent, indent, List.takeWhile_append]
  split
  · next hall =>
    rw [hall, List.length_append]
    rfl
  · rfl

/-- A bare line goes on. -/
theorem IsBare.goesOn {next : List Placed} (h : IsBare (chars next)) : goesOn none next = true := by
  have hcomment : isComment (chars next) = false := by
    rw [isComment, h]
    rfl
  have hspaces : ((chars next).takeWhile isSpace).reverse.takeWhile (· == '\\') = [] := by
    refine List.takeWhile_eq_nil_iff.mpr fun hpos hfirst => ?_
    have hmem := List.mem_reverse.mp (List.get_mem _ ⟨0, hpos⟩)
    have hspace := List.mem_takeWhile_imp hmem
    rw [beq_iff_eq.mp hfirst] at hspace
    exact absurd hspace (by decide)
  have hcontinues : continues (chars next) = true := by
    rw [continues, ← List.takeWhile_append_dropWhile (p := isSpace) (l := chars next), h,
      List.reverse_append, List.reverse_singleton, List.singleton_append,
      List.takeWhile_cons_of_pos rfl, hspaces]
    rfl
  rw [Properties.goesOn, hcontinues, hcomment]
  rfl

/-- The first character of a joined line other than a space stands on the natural line on which the
joined line begins, behind the spaces there, unless that line is bare. Then it stands further
down. -/
theorem first_of_beginsAt {text : List Char} {index : Nat} {line : PlacedLine} {first : Placed}
    (hbegins : BeginsAt (placedLines text) index line)
    (hfirst : (line.text.dropWhile fun placed => isSpace placed.char).head? = some first) :
    (IsBare (lineAt text (index + 1)) → index + 1 < first.line) ∧
    (¬ IsBare (lineAt text (index + 1)) →
      ((lineAt text (index + 1)).dropWhile isSpace).head? = some first.char ∧
      first.line = index + 1 ∧
      first.column =
        (margin text (index + 1)).length + 1 + indent (lineAt text (index + 1))) := by
  obtain ⟨next, hnext, hline⟩ := hbegins
  rw [getElem?_placedLines] at hnext
  obtain ⟨natural, hnatural, rfl⟩ := Option.map_eq_some_iff.mp hnext
  rw [lineAt_of_getElem? hnatural]
  split_ifs at hline with hgoes
  · have hcontinues := (Bool.and_eq_true_iff.mp hgoes).1
    rw [chars_place] at hcontinues
    obtain ⟨front, rfl⟩ := exists_eq_concat_of_continues hcontinues
    obtain ⟨rest, htext, hrest⟩ := hline
    rw [htext, dropLast_place, List.dropLast_concat, List.dropWhile_append,
      dropWhile_place] at hfirst
    rw [IsBare, dropWhile_concat, indent_concat]
    cases hfront : front.dropWhile isSpace with
    | nil =>
      -- Only spaces stand in front of the backslash: the character is one of the later lines.
      rw [hfront, place, List.isEmpty_nil, if_pos rfl] at hfirst
      have hmem := (List.dropWhile_subset _) (List.mem_of_head? hfirst)
      exact ⟨fun _ => (hrest.stands hmem).1, fun hnot => absurd rfl hnot⟩
    | cons c tail =>
      rw [hfront, place, List.isEmpty_cons, if_neg Bool.false_ne_true, List.cons_append,
        List.head?_cons, Option.some_inj] at hfirst
      subst hfirst
      exact ⟨fun hbare => by simp at hbare, fun _ => ⟨rfl, rfl, rfl⟩⟩
  · have hbare : ¬ IsBare natural := fun h => hgoes (IsBare.goesOn (by rwa [chars_place]))
    rw [hline, dropWhile_place, head?_place] at hfirst
    obtain ⟨c, hc, rfl⟩ := Option.map_eq_some_iff.mp hfirst
    exact ⟨fun h => absurd h hbare, fun _ => ⟨hc, rfl, rfl⟩⟩

/-! ### Keys as they are written -/

/-- The spaces, tabs and form feeds at the start of a line are skipped. -/
theorem content_append {spaces : List Char}
    (h : ∀ c ∈ spaces, c = ' ' ∨ c = '\t' ∨ c = '\x0c') (line : List Char) :
    content (spaces ++ line) = content line := by
  have hspaces : ∀ c ∈ spaces, isSpace c = true := by
    intro c hc
    rcases h c hc with rfl | rfl | rfl <;> rfl
  have hdrop : (spaces ++ line).dropWhile isSpace = line.dropWhile isSpace :=
    List.dropWhile_append_of_pos hspaces
  rw [content, content, isComment, isComment, hdrop]

/-- Key and rest make up the line. -/
theorem cutKey_append (line : List Char) : (cutKey line).1 ++ (cutKey line).2 = line := by
  fun_induction cutKey line with
  | case1 => rfl
  | case2 c line key rest hcut ih =>
    rw [hcut] at ih
    rw [← ih, List.cons_append, List.cons_append]
  | case3 c line hescape hend => rfl
  | case4 c line hescape hend key rest hcut ih =>
    rw [hcut] at ih
    rw [← ih, List.cons_append]

/-- A key that is written begins as the line does. -/
theorem head?_cutKey {line : List Char} (h : (cutKey line).1 ≠ []) :
    (cutKey line).1.head? = line.head? := by
  have hline := cutKey_append line
  obtain ⟨c, key, hkey⟩ := List.exists_cons_of_ne_nil h
  rw [hkey, List.cons_append] at hline
  rw [hkey, ← hline, List.head?_cons, List.head?_cons]

/-- A pair has the key that is written behind the spaces at the start of the line. -/
theorem unescape_of_content {line key value : List Char}
    (h : content line = some (.pair key value)) :
    line.dropWhile isSpace ≠ [] ∧ unescape (cutKey (line.dropWhile isSpace)).1 = some key := by
  rw [content] at h
  by_cases hcomment : isComment line = true
  · rw [if_pos hcomment] at h
    obtain ⟨_, -, hpair⟩ := Option.map_eq_some_iff.mp h
    cases hpair
  rw [if_neg hcomment] at h
  refine ⟨fun hnil => ?_, ?_⟩
  · rw [hnil] at h
    cases h
  dsimp only at h
  cases hvalue : cutValue (cutKey (line.dropWhile isSpace)).2 with
  | none =>
    rw [hvalue] at h
    by_cases hempty : (cutKey (line.dropWhile isSpace)).1.isEmpty = true
    · rw [if_pos hempty] at h
      cases h
    · rw [if_neg hempty] at h
      obtain ⟨found, hfound, hpair⟩ := Option.map_eq_some_iff.mp h
      cases hpair
      exact hfound
  | some value =>
    rw [hvalue] at h
    obtain ⟨found, hfound, h⟩ := Option.bind_eq_some_iff.mp h
    obtain ⟨_, -, hpair⟩ := Option.bind_eq_some_iff.mp h
    cases hpair
    exact hfound

/-! ### The definitions of a text -/

/-- What is known of a definition of a key in a text. -/
structure DefinedIn (text : List Char) (key : String) (definition : Definition) : Prop where
  number_pos : 0 < definition.number
  /-- Without its escapes, what is written is the key. -/
  unescape_eq : unescape definition.written = some key.toList
  head?_eq : definition.written ≠ [] → definition.written.head? = some definition.first.char
  /-- The text has the first character of the key at its place. -/
  charAt?_eq : charAt? text definition.first.line definition.first.column =
    some definition.first.char
  /-- Behind a bare line, the key stands further down. -/
  lt_line : IsBare (lineAt text definition.number) → definition.number < definition.first.line
  /-- Any other line has the key behind the spaces at its start. -/
  place_eq : ¬ IsBare (lineAt text definition.number) →
    ((lineAt text definition.number).dropWhile isSpace).head? = some definition.first.char ∧
    definition.first.line = definition.number ∧
    definition.first.column = (margin text definition.number).length + 1 +
      indent (lineAt text definition.number)

/-- The definition begins on the line of its key unless that line is bare. -/
theorem DefinedIn.line_eq_iff {text : List Char} {key : String} {definition : Definition}
    (h : DefinedIn text key definition) :
    definition.number = definition.first.line ↔ ¬ IsBare (lineAt text definition.number) :=
  ⟨fun heq hbare => absurd (h.lt_line hbare) (by omega), fun hnot => (h.place_eq hnot).2.1.symm⟩

/-- The spaces at the start go whether or not the characters carry their places. -/
theorem PlacedLine.chars_dropWhile (line : PlacedLine) :
    chars (line.text.dropWhile fun placed => isSpace placed.char) =
      line.plain.text.dropWhile isSpace :=
  Properties.chars_dropWhile isSpace line.text

/-- A joined line defines what its content says. -/
theorem PlacedLine.definition?_eq_some_iff {line : PlacedLine} {key : String}
    {definition : Definition} :
    line.definition? = some (key, definition) ↔
      (∃ value, content line.plain.text = some (.pair key.toList value)) ∧
      definition.number = line.number ∧
      definition.written = (cutKey (line.plain.text.dropWhile isSpace)).1 ∧
      (line.text.dropWhile fun placed => isSpace placed.char).head? = some definition.first := by
  rw [definition?, chars_dropWhile]
  constructor
  · intro h
    split at h
    · next found value first hcontent hfirst =>
      cases h
      exact ⟨⟨value, by rw [hcontent, String.toList_ofList]⟩, rfl, rfl, hfirst⟩
    · cases h
  · rintro ⟨⟨value, hcontent⟩, hnumber, hwritten, hfirst⟩
    rw [hcontent, hfirst]
    dsimp only
    rw [String.ofList_toList, ← hnumber, ← hwritten]

theorem definedIn_of_mem {text : List Char} {key : String} {definition : Definition}
    (h : (key, definition) ∈ definitions text) : DefinedIn text key definition := by
  obtain ⟨line, hline, hdefinition⟩ := List.mem_filterMap.mp h
  obtain ⟨⟨value, hcontent⟩, hnumber, hwritten, hfirst⟩ :=
    PlacedLine.definition?_eq_some_iff.mp hdefinition
  obtain ⟨-, hkey⟩ := unescape_of_content hcontent
  -- Nothing is begun in front of the first line.
  obtain ⟨_, hnone, -⟩ | ⟨index, hindex, hbegins⟩ := mem_joinPlaced hline
  · cases hnone
  have hplace := first_of_beginsAt hbegins hfirst
  rw [Nat.add_comm] at hindex
  rw [← hindex, ← hnumber] at hplace
  obtain ⟨-, hstands⟩ :=
    hbegins.fromLines.stands ((List.dropWhile_subset _) (List.mem_of_head? hfirst))
  refine ⟨by omega, ?_, fun hne => ?_, hstands, hplace.1, hplace.2⟩
  · rw [hwritten, hkey]
  · rw [hwritten] at hne ⊢
    rw [head?_cutKey hne, ← line.chars_dropWhile, chars, List.head?_map, hfirst, Option.map_some]

/-! ### Entries are definitions -/

/-- A joined line that holds a pair defines its key. -/
theorem PlacedLine.exists_definition?_eq {line : PlacedLine} {key value : List Char}
    (h : content line.plain.text = some (.pair key value)) :
    ∃ definition, line.definition? = some (String.ofList key, definition) ∧
      definition.number = line.number := by
  obtain ⟨first, hfirst⟩ : ∃ first,
      (line.text.dropWhile fun placed => isSpace placed.char).head? = some first := by
    refine Option.isSome_iff_exists.mp (List.isSome_head?.mpr fun hnil => ?_)
    refine (unescape_of_content h).1 ?_
    rw [← line.chars_dropWhile, hnil]
    rfl
  let written := (cutKey (line.plain.text.dropWhile isSpace)).1
  refine ⟨⟨line.number, written, first⟩, ?_, rfl⟩
  exact definition?_eq_some_iff.mpr ⟨⟨value, by rw [h, String.toList_ofList]⟩, rfl, rfl, hfirst⟩

/-- The entry of a joined line is its definition. -/
theorem map_place_entryOf {lines : List (List Char)} {line : PlacedLine} {found : Option Entry}
    (h : entryOf lines line.plain = some found) :
    (found.map fun entry => (entry.key, entry.place)) = line.definition?.map fun pair =>
      (pair.1, .position pair.2.number (column lines pair.2.number)) := by
  obtain ⟨held, hcontent, rfl⟩ := Option.map_eq_some_iff.mp h
  cases held with
  | nothing =>
    have hnone : line.definition? = none := by
      refine Option.eq_none_iff_forall_ne_some.mpr fun pair hpair => ?_
      obtain ⟨⟨value, hvalue⟩, -⟩ := PlacedLine.definition?_eq_some_iff.mp hpair
      rw [hcontent] at hvalue
      cases hvalue
    rw [hnone]
    rfl
  | pair key value =>
    obtain ⟨definition, hdefinition, hnumber⟩ := PlacedLine.exists_definition?_eq hcontent
    rw [hdefinition, Option.map_some, Option.map_some, hnumber]
    rfl

/-- The entries of a text are its definitions. Each has the number of the natural line on which its
definition begins, and a column that is looked up with this number among the lines of the text,
which need not be the natural ones. -/
theorem map_place_entries {text : List Char} {found : List Entry} (h : entries text = some found) :
    (found.map fun entry => (entry.key, entry.place)) = Pairs.mapValues (fun definition =>
      .position definition.number (column (Text.lines text) definition.number))
      (definitions text) := by
  obtain ⟨held, hheld, rfl⟩ := Option.map_eq_some_iff.mp h
  rw [← map_plain_placedLogicalLines] at hheld
  rw [definitions, Pairs.mapValues, List.map_filterMap, List.map_filterMap]
  clear h
  generalize placedLogicalLines text = lines at hheld ⊢
  induction lines generalizing held with
  | nil =>
    cases hheld
    rfl
  | cons line lines ih =>
    rw [List.map_cons, List.mapM_cons] at hheld
    obtain ⟨found, hfound, hheld⟩ := Option.bind_eq_some_iff.mp hheld
    obtain ⟨rest, hrest, hheld⟩ := Option.bind_eq_some_iff.mp hheld
    cases hheld
    rw [List.filterMap_cons, List.filterMap_cons, id, map_place_entryOf hfound,
      ih rest hrest]

end LayeredConfig.Properties
