import LayeredConfig.Proofs.Load.OwnFiles

/-!
# One format for each extension

In a directory every extension is handled once, by the first format that declares it. A file that
the search path names is read with the first format that is meant for its location. Where no
extension has a dot or a capital letter, the two choices agree, however the declarations overlap
and whatever stands before the extension.

## Main definitions

* `Format.PlainExtensions`: the extensions of a format have no dots and no capital letters.
* `Registry.FirstToDeclare`: the first format that declares an extension.

## Main results

* `Registry.firstToDeclare_of_forLocation?`: the format that is meant for a file with an extension.
* `Registry.filter_handlers`, `Registry.filter_looks`: in a directory, an extension is handled once.
* `Registry.filter_location_looks`: each stem has one look at the file with an extension.
* `Registry.directories_agree`: both choices are the first format that declares the extension.
-/

namespace LayeredConfig

/-- No extension of the format has a dot or a capital letter of ASCII. -/
def Format.PlainExtensions (format : Format) : Prop :=
  ∀ extension ∈ format.extensions, ∀ c ∈ extension.toList, c ≠ '.' ∧ c.isUpper = false

namespace Registry

/-- The format of the index declares the extension, and no earlier one does. -/
def FirstToDeclare (registry : Registry) (extension : String) (index : Nat) : Prop :=
  (∃ format, registry.get? index = some format ∧ extension ∈ format.extensions) ∧
    ∀ earlier < index, ∀ format, registry.get? earlier = some format →
      extension ∉ format.extensions

variable {registry : Registry} {extension : String}

private theorem flatMap_filter {α β : Type} (f : α → List β) (p : α → Bool) (l : List α) :
    (l.filter p).flatMap f = l.flatMap fun a => if p a then f a else [] := by
  induction l with
  | nil => rfl
  | cons a l ih =>
    rw [List.filter_cons, List.flatMap_cons, ← ih]
    split <;> rfl

/-- The handlers cover the extensions of all formats. -/
theorem mem_map_handlers_iff :
    extension ∈ registry.handlers.map Handler.extension ↔
      ∃ format ∈ registry.formats, extension ∈ format.extensions := by
  rw [handlers, map_eraseDupsBy, List.mem_eraseDups, List.mem_map]
  constructor
  · rintro ⟨handler, hhandler, rfl⟩
    obtain ⟨handlers, hhandlers, hmem⟩ := List.mem_flatten.mp hhandler
    obtain ⟨index, hindex, rfl⟩ := List.mem_mapIdx.mp hhandlers
    obtain ⟨extension, hextension, rfl⟩ := List.mem_map.mp hmem
    exact ⟨_, List.getElem_mem hindex, hextension⟩
  · rintro ⟨format, hformat, hextension⟩
    obtain ⟨index, hindex, rfl⟩ := List.mem_iff_getElem.mp hformat
    refine ⟨{ index, extension }, List.mem_flatten.mpr ⟨_, List.mem_mapIdx.mpr ⟨index, hindex, rfl⟩,
      List.mem_map_of_mem hextension⟩, rfl⟩

/-- Every extension has at most one handler. -/
theorem filter_handlers {handler : Handler} (h : handler ∈ registry.handlers) :
    registry.handlers.filter (·.extension == handler.extension) = [handler] := by
  have hnodup : (registry.handlers.map Handler.extension).Nodup := by
    rw [handlers, map_eraseDupsBy]
    exact nodup_eraseDups _
  exact filter_eq_singleton hnodup (fun other hother => beq_iff_eq.mp hother) h
    (beq_self_eq_true _)

/-- Of the looks of a handler, one is at the file of no profile. -/
private theorem filter_own (processed : List Profile) (profile : Profile) (stem : String)
    (handler : Handler) :
    (Plan.stemProbes processed profile stem handler).filter
        (·.location == stem ++ "." ++ handler.extension) =
      [{ location := stem ++ "." ++ handler.extension, index := some handler.index,
         selector := profile }] := by
  -- The file of a profile has a longer name.
  have hother (name : String) :
      Plan.profileFile stem name handler.extension ≠ stem ++ "." ++ handler.extension := by
    intro heq
    have hlength := congrArg String.length heq
    simp only [Plan.profileFile, String.length_append] at hlength
    have hdash : "-".length = 1 := rfl
    omega
  cases hname : profile.name? with
  | none => simp [Plan.stemProbes, hname]
  | some name => simp [Plan.stemProbes, hname, hother]

section Plain

variable (hplain : ∀ format ∈ registry.formats, format.PlainExtensions)

include hplain

private theorem notMem_of_plain {format : Format} (hformat : format ∈ registry.formats)
    (h : extension ∈ format.extensions) : '.' ∉ extension.toList :=
  fun hdot => (hplain format hformat extension h '.' hdot).1 rfl

private theorem map_toLower_of_plain {format : Format} (hformat : format ∈ registry.formats)
    (h : extension ∈ format.extensions) :
    extension.toList.map Char.toLower = extension.toList := by
  refine (List.map_congr_left fun c hc => ?_).trans (List.map_id _)
  have hupper := (hplain format hformat extension h c hc).2
  unfold Char.toLower
  exact dif_neg (of_decide_eq_false hupper)

/-- In a registry with plain extensions, a file is read with one format wherever it is found. -/
private theorem consistent_of_plainExtensions : registry.Consistent :=
  consistent_of_plain fun _ hformat _ h =>
    ⟨map_toLower_of_plain hplain hformat h, notMem_of_plain hplain hformat h⟩

/-- A file is meant for the first format that declares its extension, whatever stands before. -/
theorem firstToDeclare_of_forLocation? {stem : String} {index : Nat}
    (hdeclared : ∃ format ∈ registry.formats, extension ∈ format.extensions)
    (h : registry.forLocation? (stem ++ "." ++ extension) = some index) :
    registry.FirstToDeclare extension index := by
  obtain ⟨declaring, hdeclaring, hextension⟩ := hdeclared
  have hread {place : Nat} (hplace : place < registry.formats.length) :
      registry.formats[place].canRead (stem ++ "." ++ extension) = true ↔
        extension ∈ registry.formats[place].extensions := by
    rw [Format.canRead_append
      (fun other => notMem_of_plain hplain (List.getElem_mem hplace))
      (map_toLower_of_plain hplain hdeclaring hextension)
      (notMem_of_plain hplain hdeclaring hextension), List.contains_iff_mem]
  obtain ⟨hindex, hmeant, hearlier⟩ := List.findIdx?_eq_some_iff_getElem.mp h
  refine ⟨⟨_, List.getElem?_eq_getElem hindex, (hread hindex).mp hmeant⟩, ?_⟩
  intro earlier hlt format hget hmem
  obtain ⟨hplace, rfl⟩ := List.getElem?_eq_some_iff.mp hget
  exact hearlier earlier hlt ((hread hplace).mpr hmem)

/-- All looks of a handler are at files with its extension, and no other looks are. -/
private theorem filter_stemProbes {handler : Handler} (hhandler : handler ∈ registry.handlers)
    (hdeclared : ∃ format ∈ registry.formats, extension ∈ format.extensions)
    (processed : List Profile) (profile : Profile) (stem : String) :
    (Plan.stemProbes processed profile stem handler).filter
        (fun probe => Format.hasExtension probe.location extension) =
      if handler.extension == extension then Plan.stemProbes processed profile stem handler
      else [] := by
  obtain ⟨declaring, hdeclaring, hextension⟩ := hdeclared
  obtain ⟨format, hformat, hown⟩ :=
    mem_map_handlers_iff.mp (List.mem_map_of_mem (f := Handler.extension) hhandler)
  have hends (front : String) :
      Format.hasExtension (front ++ "." ++ handler.extension) extension =
        (extension == handler.extension) :=
    Format.hasExtension_append (map_toLower_of_plain hplain hformat hown)
      (notMem_of_plain hplain hformat hown) (notMem_of_plain hplain hdeclaring hextension)
  have hall : ∀ probe ∈ Plan.stemProbes processed profile stem handler,
      Format.hasExtension probe.location extension = (extension == handler.extension) := by
    intro probe hprobe
    obtain ⟨-, -, front, hlocation⟩ := Plan.look_of_mem_stemProbes hprobe
    rw [hlocation]
    exact hends front
  rw [List.filter_congr hall]
  by_cases h : handler.extension = extension
  · simp [h]
  · simp [h, Ne.symm h]

/-- Of the looks for one stem in a directory, those at the files of an extension are the looks
of its one handler. -/
theorem filter_looks {handler : Handler} (h : handler ∈ registry.handlers)
    (processed : List Profile) (profile : Profile) (stem : String) :
    (registry.handlers.flatMap (Plan.stemProbes processed profile stem)).filter
        (fun probe => Format.hasExtension probe.location handler.extension) =
      Plan.stemProbes processed profile stem handler := by
  have hdeclared := mem_map_handlers_iff.mp (List.mem_map_of_mem (f := Handler.extension) h)
  rw [List.filter_flatMap]
  calc registry.handlers.flatMap (fun other =>
          (Plan.stemProbes processed profile stem other).filter
            fun probe => Format.hasExtension probe.location handler.extension)
      = registry.handlers.flatMap (fun other =>
          if other.extension == handler.extension then Plan.stemProbes processed profile stem other
          else []) :=
        List.flatMap_congr fun other hother =>
          filter_stemProbes hplain hother hdeclared processed profile stem
    _ = (registry.handlers.filter (·.extension == handler.extension)).flatMap
          (Plan.stemProbes processed profile stem) := (flatMap_filter ..).symm
    _ = Plan.stemProbes processed profile stem handler := by
        rw [filter_handlers h, List.flatMap_singleton]

/-- Of the looks for one stem in a directory, one is at the file of no profile with an extension,
and it reads with the format of the handler. -/
theorem filter_location_looks {handler : Handler} (h : handler ∈ registry.handlers)
    (processed : List Profile) (profile : Profile) (stem : String) :
    (registry.handlers.flatMap (Plan.stemProbes processed profile stem)).filter
        (·.location == stem ++ "." ++ handler.extension) =
      [{ location := stem ++ "." ++ handler.extension, index := some handler.index,
         selector := profile }] := by
  obtain ⟨format, hformat, hextension⟩ :=
    mem_map_handlers_iff.mp (List.mem_map_of_mem (f := Handler.extension) h)
  have hdot := notMem_of_plain hplain hformat hextension
  have hends : Format.hasExtension (stem ++ "." ++ handler.extension) handler.extension = true := by
    rw [Format.hasExtension_append (map_toLower_of_plain hplain hformat hextension) hdot hdot]
    exact beq_self_eq_true _
  -- What is at this file has the extension.
  have hboth : ∀ probe : Probe, (probe.location == stem ++ "." ++ handler.extension) =
      (probe.location == stem ++ "." ++ handler.extension &&
        Format.hasExtension probe.location handler.extension) := by
    intro probe
    by_cases hlocation : probe.location = stem ++ "." ++ handler.extension
    · rw [hlocation, hends, Bool.and_true]
    · rw [beq_false_of_ne hlocation, Bool.false_and]
  rw [List.filter_congr fun probe _ => hboth probe, ← List.filter_filter, filter_looks hplain h,
    filter_own]

end Plain

/-- The formats that are chosen in directories and for files that the search path names agree: an
extension that some format declares is handled once in a directory, and both there and for every
file with that extension the format is the first one that declares it. For each stem of a directory
the file of no profile is looked at once, with that format, and so is, with that format, whatever
else has the extension. -/
theorem directories_agree (registry : Registry)
    (hplain : ∀ format ∈ registry.formats, format.PlainExtensions) {extension : String}
    (hdeclared : ∃ format ∈ registry.formats, extension ∈ format.extensions) :
    ∃ index, registry.FirstToDeclare extension index ∧
      registry.handlers.filter (·.extension == extension) = [{ index, extension }] ∧
      (∀ processed profile stem,
        (registry.handlers.flatMap (Plan.stemProbes processed profile stem)).filter
            (fun probe => Format.hasExtension probe.location extension) =
          Plan.stemProbes processed profile stem { index, extension } ∧
        (registry.handlers.flatMap (Plan.stemProbes processed profile stem)).filter
            (·.location == stem ++ "." ++ extension) =
          [{ location := stem ++ "." ++ extension, index := some index, selector := profile }] ∧
        ∀ probe ∈ registry.handlers.flatMap (Plan.stemProbes processed profile stem),
          Format.hasExtension probe.location extension = true → probe.index = some index) ∧
      ∀ stem, registry.forLocation? (stem ++ "." ++ extension) = some index := by
  obtain ⟨handler, hhandler, rfl⟩ := List.mem_map.mp (mem_map_handlers_iff.mpr hdeclared)
  have hmeant := consistent_of_plainExtensions hplain handler hhandler
  refine ⟨handler.index, firstToDeclare_of_forLocation? hplain hdeclared (hmeant ""),
    filter_handlers hhandler, fun processed profile stem => ?_, hmeant⟩
  have hlooks := filter_looks hplain hhandler processed profile stem
  refine ⟨hlooks, filter_location_looks hplain hhandler processed profile stem, ?_⟩
  intro probe hprobe hends
  have hmem : probe ∈ Plan.stemProbes processed profile stem handler := by
    rw [← hlooks]
    exact List.mem_filter.mpr ⟨hprobe, hends⟩
  exact (Plan.look_of_mem_stemProbes hmem).1

/-- Two formats declare an extension in common, and one of them the same extension twice. -/
theorem directories_agree_overlapping :
    let first : Format :=
      { name := "first", extensions := ["yml", "conf", "yml"], body := .fixed [] }
    let second : Format := { name := "second", extensions := ["conf", "cfg"], body := .fixed [] }
    let registry : Registry := ⟨[first, second]⟩
    (∀ format ∈ registry.formats, format.PlainExtensions) ∧
      (∃ format ∈ registry.formats, "conf" ∈ format.extensions) ∧
      registry.handlers = [⟨0, "yml"⟩, ⟨0, "conf"⟩, ⟨1, "cfg"⟩] ∧
      ∀ stem, registry.forLocation? (stem ++ "." ++ "conf") = some 0 := by
  intro first second registry
  have hplain : ∀ format ∈ registry.formats, format.PlainExtensions := by
    -- A decision over all characters would go through every one that there is.
    have hall : ∀ format ∈ registry.formats, ∀ extension ∈ format.extensions,
        extension.toList.all (fun c => c != '.' && !c.isUpper) = true := by
      decide +kernel
    intro format hformat extension hextension c hc
    simpa using List.all_eq_true.mp (hall format hformat extension hextension) c hc
  have hdeclared : ∃ format ∈ registry.formats, "conf" ∈ format.extensions :=
    ⟨first, .head _, .tail _ (.head _)⟩
  obtain ⟨index, -, hhandler, -, hmeant⟩ := registry.directories_agree hplain hdeclared
  have hindex : registry.handlers.filter (·.extension == "conf") = [⟨0, "conf"⟩] := by
    decide +kernel
  cases hindex.symm.trans hhandler
  exact ⟨hplain, hdeclared, by decide +kernel, hmeant⟩

end Registry

end LayeredConfig
