import LayeredConfig.Proofs.Pairs
import LayeredConfig.Proofs.Properties.LineEnds

/-!
# Origins of the values in a properties file

A value keeps the number of the natural line on which its last definition begins, and the column
that is looked up with this number among the lines of the text. The line is that of the key unless
it is bare. The column is that of the key, too, if it is looked up on the same line, with no mark in
front, and if the key does not begin with a blank other than the spaces of a properties file.

## Main definitions

* `Properties.Definition.origin`: the origin that points at the first character of a key.
* `Properties.Definition.recorded`: the origin that is kept.

## Main results

* `Properties.origin_eq_iff`: when the origin of a value points at its key.
-/

namespace LayeredConfig.Properties

/-- The origin that points at the first character of the key. -/
def Definition.origin (definition : Definition) (location : String) : Origin where
  resource := location
  line := some definition.first.line
  column := some definition.first.column

/-- The origin with which the value of a definition is kept. -/
def Definition.recorded (definition : Definition) (text : List Char) (location : String) :
    Origin where
  resource := location
  line := some definition.number
  column := some (column (Text.lines text) definition.number)

/-- The origin that is kept points at the key if the line is not bare and the column is the one
behind the spaces there. -/
theorem DefinedIn.recorded_eq_iff {text : List Char} {key : String} {definition : Definition}
    (h : DefinedIn text key definition) (location : String) :
    definition.recorded text location = definition.origin location ↔
      ¬ IsBare (lineAt text definition.number) ∧
      column (Text.lines text) definition.number =
        (margin text definition.number).length + 1 + indent (lineAt text definition.number) := by
  have hplace : definition.recorded text location = definition.origin location ↔
      definition.number = definition.first.line ∧
      column (Text.lines text) definition.number = definition.first.column := by
    simp [Definition.recorded, Definition.origin]
  rw [hplace, h.line_eq_iff]
  refine and_congr_right fun hnot => ?_
  rw [(h.place_eq hnot).2.2]

variable {name key : String} {resource : Resource} {text : String} {sources : List Source}
  {source : Source} {property : Property}

/-- The source of a properties file has its entries. -/
theorem exists_entries_of_mem (htext : resource.text = .ok text)
    (hload : Format.properties.load name resource = .ok sources) (hsource : source ∈ sources) :
    ∃ found, entries text.toList = some found ∧
      source.entries = Pairs.ofList (found.map fun entry => (entry.key,
        { value := entry.text, origin := entry.place.origin? resource.location 0 })) := by
  obtain ⟨read, hread, hsources⟩ := Failure.bind_eq_ok_iff.mp hload
  obtain rfl := Except.ok.inj hsources
  obtain ⟨_, hsame, hread⟩ := Failure.bind_eq_ok_iff.mp hread
  obtain rfl := Except.ok.inj (htext.symm.trans hsame)
  split at hread
  · next documents hdocuments =>
    obtain rfl := Except.ok.inj hread
    obtain ⟨found, hfound, rfl⟩ := Option.map_eq_some_iff.mp hdocuments
    refine ⟨found, hfound, ?_⟩
    split_ifs at hsource
    · cases hsource
    · obtain rfl := List.mem_singleton.mp hsource
      rfl
  · cases hread

/-- The value of a key has the place of the last definition of this key. -/
theorem exists_isLast_of_mem (htext : resource.text = .ok text)
    (hload : Format.properties.load name resource = .ok sources) (hsource : source ∈ sources)
    (hentry : (key, property) ∈ source.entries) :
    ∃ definition, Pairs.IsLast (definitions text.toList) key definition ∧
      property.origin = some (definition.recorded text.toList resource.location) := by
  obtain ⟨found, hfound, hentries⟩ := exists_entries_of_mem htext hload hsource
  rw [hentries] at hentry
  have hget := Pairs.get?_of_mem (Pairs.ofList_spec _).1 hentry
  have horigin := congrArg (Option.map Property.origin) hget
  -- Setting keys commutes with a change of the values, so it is enough to look at the places.
  have hplaces : Pairs.mapValues Property.origin (found.map fun entry => (entry.key,
        { value := entry.text, origin := entry.place.origin? resource.location 0 })) =
      Pairs.mapValues (Place.origin? resource.location 0)
        (found.map fun entry => (entry.key, entry.place)) := by
    rw [Pairs.mapValues, Pairs.mapValues, List.map_map, List.map_map]
    rfl
  rw [← Pairs.get?_mapValues, Pairs.mapValues_ofList, hplaces, map_place_entries hfound,
    ← Pairs.mapValues_ofList, ← Pairs.mapValues_ofList, Pairs.get?_mapValues, Pairs.get?_mapValues,
    Option.map_map] at horigin
  obtain ⟨definition, hdefinition, hplace⟩ := Option.map_eq_some_iff.mp horigin
  exact ⟨definition, Pairs.get?_ofList_iff.mp hdefinition, hplace.symm⟩

/-- The value of a key has the origin of the last definition of this key. Its line is that of the
key unless the definition begins on a bare line. Its column is that of the key, too, if it is looked
up on a line that has as many blanks at its start as there are characters in front of the key. Where
no carriage return stands alone, it has, apart from a first line behind the mark, and from a key
that begins with a blank other than the spaces of a properties file. -/
theorem origin_eq_iff (htext : resource.text = .ok text)
    (hload : Format.properties.load name resource = .ok sources) (hsource : source ∈ sources)
    (hentry : (key, property) ∈ source.entries) :
    ∃ definition origin, Pairs.IsLast (definitions text.toList) key definition ∧
      DefinedIn text.toList key definition ∧ property.origin = some origin ∧
      (origin.line = some definition.first.line ↔
        ¬ IsBare (lineAt text.toList definition.number)) ∧
      (origin = definition.origin resource.location ↔
        ¬ IsBare (lineAt text.toList definition.number) ∧
        column (Text.lines text.toList) definition.number =
          (margin text.toList definition.number).length + 1 +
            indent (lineAt text.toList definition.number)) ∧
      (NoLoneReturn text.toList →
        (origin = definition.origin resource.location ↔
          ¬ IsBare (lineAt text.toList definition.number) ∧
          margin text.toList definition.number = [] ∧
          Text.isBlank definition.first.char = false)) := by
  obtain ⟨definition, hlast, horigin⟩ := exists_isLast_of_mem htext hload hsource hentry
  have hdefined : DefinedIn text.toList key definition := by
    obtain ⟨before, after, hsplit, -⟩ := hlast
    exact definedIn_of_mem (by simp [hsplit])
  have hcolumn := hdefined.recorded_eq_iff resource.location
  refine ⟨definition, _, hlast, hdefined, horigin, ?_, hcolumn, fun hreturns => ?_⟩
  · exact Option.some_inj.trans hdefined.line_eq_iff
  · rw [hcolumn]
    exact and_congr_right fun hnot =>
      column_eq_iff hreturns hdefined.number_pos (hdefined.place_eq hnot).1

/-- A file with a text. -/
def file (text : String) : Resource :=
  .ofText "file:/a.properties" (some text)

/-- A value that was read from the file. -/
def valueAt (value : String) (line column : Nat) : Property where
  value := value
  origin := some { resource := "file:/a.properties", line := some line, column := some column }

/-- A text with a comment, a line that is indented, and a value that goes on. -/
def indented : String := "# x\r\nx=1\n  y : a\\\n b\n"

theorem origin_eq_iff_indented :
    (file indented).text = .ok indented ∧
    ∃ source, Format.properties.load "config" (file indented) = .ok [source] ∧
      ("y", valueAt "ab" 3 3) ∈ source.entries ∧
      ∃ definition, Pairs.IsLast (definitions indented.toList) "y" definition ∧
        definition.first = ⟨'y', 3, 3⟩ ∧
        (valueAt "ab" 3 3).origin = some (definition.origin "file:/a.properties") := by
  have hload : Format.properties.load "config" (file indented) =
      .ok [⟨"config", .plain, [("x", valueAt "1" 2 1), ("y", valueAt "ab" 3 3)]⟩] := by
    decide +kernel
  have hentry : ("y", valueAt "ab" 3 3) ∈ [("x", valueAt "1" 2 1), ("y", valueAt "ab" 3 3)] :=
    List.mem_cons_of_mem _ List.mem_cons_self
  obtain ⟨definition, origin, hlast, -, horigin, -, -, hright⟩ :=
    origin_eq_iff rfl hload List.mem_cons_self hentry
  have hfound : Pairs.get? "y" (Pairs.ofList (definitions indented.toList)) =
      some ⟨3, ['y'], ⟨'y', 3, 3⟩⟩ := by decide +kernel
  rw [Pairs.get?_ofList_iff.mpr hlast] at hfound
  obtain rfl := Option.some_inj.mp hfound
  have hkey := (hright (by decide +kernel)).mpr ⟨by decide +kernel, by decide +kernel, by decide⟩
  exact ⟨rfl, _, hload, hentry, _, hlast, rfl, hkey ▸ horigin⟩

/-- Behind a carriage return that stands alone, the origin of a key does not point at the key. -/
theorem origin_apart_from_key :
    ¬ ∀ (name key : String) (resource : Resource) (text : String) (sources : List Source)
      (source : Source) (property : Property), resource.text = .ok text →
      Format.properties.load name resource = .ok sources → source ∈ sources →
      (key, property) ∈ source.entries →
      ∃ definition, Pairs.IsLast (definitions text.toList) key definition ∧
        property.origin = some (definition.origin resource.location) := by
  intro hall
  have hload : Format.properties.load "config" (file "a=1\r  b=2\n") =
      .ok [⟨"config", .plain, [("a", valueAt "1" 1 1), ("b", valueAt "2" 2 1)]⟩] := by
    decide +kernel
  have hentry : ("b", valueAt "2" 2 1) ∈ [("a", valueAt "1" 1 1), ("b", valueAt "2" 2 1)] :=
    List.mem_cons_of_mem _ List.mem_cons_self
  obtain ⟨definition, hlast, horigin⟩ := hall _ _ _ _ _ _ _ rfl hload List.mem_cons_self hentry
  have hfound : Pairs.get? "b" (Pairs.ofList (definitions "a=1\r  b=2\n".toList)) =
      some ⟨2, ['b'], ⟨'b', 2, 3⟩⟩ := by decide +kernel
  rw [Pairs.get?_ofList_iff.mpr hlast] at hfound
  obtain rfl := Option.some_inj.mp hfound
  exact absurd horigin (by decide)

end LayeredConfig.Properties
