import LayeredConfig.Format.BuiltIn
import LayeredConfig.Proofs.Load.Siblings
import LayeredConfig.Proofs.Load.Sweeps

/-!
# The files of a profile

The own files of the unscoped profile are the files that the search path names, and those with a
name that is searched for and a known extension in one of its directories. The own files of a named
profile are the ones in the directories that bear its name, too. Where locations lead to texts, and
extensions are plain, every visit of a load that succeeds has the documents of its file.

## Main definitions

* `Registry.Plain`: the extensions of a registry are plain.
* `Plan.ownFiles`: the own files of a profile in probe order.
* `Loader.documentsAt`, `Loader.documentsBy`: the documents of the file at a location, with the
  format that is meant for it and with a given one.

## Main results

* `Registry.plain_of_builtIn`: the extensions of the built-in formats are plain.
* `Plan.flatMap_probes`: the looks for what declares no profile go to the own files.
* `Loader.Course.documentsBy_eq`, `Loader.Course.documentsAt_eq`: a visit has the documents of its
  file.
* `Loader.documentsAt_inj`: documents of one name are the same.
-/

namespace LayeredConfig

/-! ### Plain extensions -/

/-- No extension is empty, has a capital letter, or has a character that separates the parts of a
location. -/
def Registry.Plain (registry : Registry) : Prop :=
  ∀ format ∈ registry.formats, ∀ extension ∈ format.extensions,
    extension.toList.map Char.toLower = extension.toList ∧ extension.toList ≠ [] ∧
      ∀ c ∈ ['.', '/', ':'], c ∉ extension.toList

namespace Registry

variable {registry : Registry}

/-- The extensions of the built-in formats are plain. -/
theorem plain_of_builtIn (h : ∀ format ∈ registry.formats, format ∈ builtIn.formats) :
    registry.Plain := by
  have hbuiltIn : builtIn.Plain := by
    -- The separators stand one by one, for no decision goes through all characters.
    simp only [Plain, List.mem_cons, List.not_mem_nil, or_false, forall_eq_or_imp, forall_eq]
    decide
  exact fun format hformat => hbuiltIn format (h format hformat)

theorem Plain.consistent (h : registry.Plain) : registry.Consistent :=
  consistent_of_plain fun format hformat extension hextension =>
    ⟨(h format hformat extension hextension).1,
      (h format hformat extension hextension).2.2 '.' (by simp)⟩

end Registry

/-- Only a letter is the small form of another character. -/
private theorem eq_of_toLower_eq {c d : Char} (hd : d.isAlpha = false) (h : c.toLower = d) :
    c = d := by
  unfold Char.toLower at h
  split at h
  · next hupper =>
    subst h
    delta Char.isAlpha Char.isLower Char.isUpper at hd
    simp [UInt32.le_iff_toNat_le] at hd hupper
    omega
  · exact h

/-- The parts around the last separator. -/
private theorem cutLast_append {sep : Char} {before after : List Char} (h : sep ∉ after) :
    Text.cutLast sep (before ++ sep :: after) = some (before, after) := by
  have hother : ∀ c ∈ after.reverse, (c != sep) = true := by
    intro c hc
    rw [bne_iff_ne]
    rintro rfl
    exact h (List.mem_reverse.mp hc)
  have hreverse : (before ++ sep :: after).reverse = after.reverse ++ sep :: before.reverse := by
    simp
  rw [Text.cutLast, Text.cutFirst, hreverse, List.takeWhile_append_of_pos hother,
    List.dropWhile_append_of_pos hother]
  simp

namespace Resource

/-- The last name of a location ends with what follows the last slash or colon. -/
private theorem exists_lastName? {location : String} {front last : List Char}
    (hlocation : location.toList = front ++ last) (hsome : last ≠ [])
    (hlast : ∀ c ∈ last, (c != '/' && c != ':') = true) :
    ∃ stem, lastName? location = some (String.ofList (stem ++ last)) := by
  have hreverse : location.toList.reverse = last.reverse ++ front.reverse := by
    rw [hlocation, List.reverse_append]
  refine ⟨(front.reverse.takeWhile fun c => c != '/' && c != ':').reverse, ?_⟩
  have hrest : ∀ c ∈ last.reverse, (c != '/' && c != ':') = true :=
    fun c hc => hlast c (List.mem_reverse.mp hc)
  rw [lastName?, hreverse, List.takeWhile_append_of_pos hrest]
  simp [hsome]

/-- A text whose location ends with a plain extension has an extension. -/
theorem extension?_ofText {location extension : String} {content : Option String}
    (h : Format.hasExtension location extension = true) (hsome : extension.toList ≠ [])
    (hplain : ∀ c ∈ ['.', '/', ':'], c ∉ extension.toList) :
    (ofText location content).extension?.isSome = true := by
  rw [Format.hasExtension, List.isSuffixOf_iff_suffix] at h
  obtain ⟨lead, hlead⟩ := h
  obtain ⟨front, tail, hlocation, -, htail⟩ := List.map_eq_append_iff.mp hlead.symm
  obtain ⟨point, rest, rfl, hpoint, hrest⟩ := List.map_eq_cons_iff.mp htail
  obtain rfl := eq_of_toLower_eq (by decide) hpoint
  have hlower : ∀ c ∈ ['.', '/', ':'], c.toLower = c := by
    simp only [List.mem_cons, List.not_mem_nil, or_false, forall_eq_or_imp, forall_eq]
    decide
  have hnot (c : Char) (hc : c ∈ ['.', '/', ':']) : c ∉ rest := by
    intro hmem
    refine hplain c hc ?_
    rw [← hrest]
    exact List.mem_map.mpr ⟨c, hmem, hlower c hc⟩
  have hrestSome : rest ≠ [] := by
    rintro rfl
    exact hsome hrest.symm
  -- The last name of the location ends with the dot and the rest.
  obtain ⟨stem, hname⟩ := exists_lastName? hlocation (by simp) fun c hc => by
    rcases List.mem_cons.mp hc with rfl | hc
    · decide
    · rw [Bool.and_eq_true, bne_iff_ne, bne_iff_ne]
      constructor
      · rintro rfl
        exact hnot '/' (by simp) hc
      · rintro rfl
        exact hnot ':' (by simp) hc
  have hcut : Text.cutLast '.' (stem ++ '.' :: rest) = some (stem, rest) :=
    cutLast_append (hnot '.' (by simp))
  simp [extension?, ofText, hname, hcut, hrestSome]

end Resource

namespace Registry

variable {registry : Registry}

/-- A text that is read with a format has an extension. -/
theorem Plain.extension?_ofText (h : registry.Plain) {location : String} {index : Nat}
    (hindex : registry.forLocation? location = some index) (content : Option String) :
    (Resource.ofText location content).extension?.isSome = true := by
  obtain ⟨hlt, hread, -⟩ := List.findIdx?_eq_some_iff_getElem.mp hindex
  obtain ⟨extension, hextension, hends⟩ := List.any_eq_true.mp hread
  obtain ⟨-, hsome, hplain⟩ := h _ (List.getElem_mem hlt) extension hextension
  exact Resource.extension?_ofText hends hsome hplain

end Registry

/-! ### Own files -/

namespace Plan

/-- The own file of a profile for a stem and an extension. -/
def ownFile (profile : Profile) (stem : String) (handler : Handler) : String :=
  match profile.name? with
  | none => stem ++ "." ++ handler.extension
  | some name => profileFile stem name handler.extension

theorem ownFile_of_some {profile : Profile} {name : String} (h : profile.name? = some name)
    (stem : String) (handler : Handler) :
    ownFile profile stem handler = profileFile stem name handler.extension := by
  rw [ownFile, h]

/-- The own files of a profile at an entry of the search path. -/
def ownFilesAt (plan : Plan) (profile : Profile) (root : String) : List String :=
  if Path.isDirectory root then
    plan.names.flatMap fun name => plan.registry.handlers.map (ownFile profile (root ++ name))
  else
    match profile.name? with
    | none => [root]
    | some _ => []

/-- The own files of a profile in probe order. -/
def ownFiles (plan : Plan) (profile : Profile) : List String :=
  plan.locations.flatMap (plan.ownFilesAt profile)

variable {plan : Plan} {location : String}

section Probes

variable {α : Type} (f : String → List α)

private theorem flatMap_stemProbes (processed : List Profile) (profile : Profile) (stem : String)
    (handler : Handler) :
    ((stemProbes processed profile stem handler).flatMap fun probe =>
      if probe.selector.name? = none then f probe.location else []) =
        f (ownFile profile stem handler) := by
  have hunscoped : Profile.unscoped.name? = none := rfl
  cases hname : profile.name? with
  | none => simp [stemProbes, ownFile, hname]
  | some name => simp [stemProbes, ownFile, hname, hunscoped, List.flatMap_map]

/-- Of the looks for a profile, those at what declares no profile go to its own files. -/
theorem flatMap_probes (plan : Plan) (processed : List Profile) (profile : Profile) :
    ((plan.probes processed profile).flatMap fun probe =>
      if probe.selector.name? = none then f probe.location else []) =
        (plan.ownFiles profile).flatMap f := by
  rw [probes, ownFiles, List.flatMap_assoc, List.flatMap_assoc]
  refine List.flatMap_congr fun root _ => ?_
  unfold locationProbes ownFilesAt
  split
  · rw [List.flatMap_assoc, List.flatMap_assoc]
    refine List.flatMap_congr fun name _ => ?_
    rw [List.flatMap_assoc, List.flatMap_map]
    exact List.flatMap_congr fun handler _ => flatMap_stemProbes f processed profile _ handler
  · cases hname : profile.name? <;> simp [hname]

end Probes

/-- The own files of a profile are looked at for what declares no profile. -/
theorem exists_probe_of_mem_ownFiles {profile : Profile} (h : location ∈ plan.ownFiles profile)
    (processed : List Profile) : ∃ probe ∈ plan.probes processed profile,
      probe.location = location ∧ probe.selector.name? = none := by
  have hmem : location ∈ (plan.ownFiles profile).flatMap fun file => [file] := by simpa using h
  rw [← flatMap_probes _ plan processed] at hmem
  obtain ⟨probe, hprobe, hlocation⟩ := List.mem_flatMap.mp hmem
  split at hlocation
  · next hselector =>
    exact ⟨probe, hprobe, (List.mem_singleton.mp hlocation).symm, hselector⟩
  · cases hlocation

/-- Whatever is looked at for a profile is an own file of it, of the unscoped profile, or of one
that is done. -/
theorem exists_own_of_mem_probes {processed : List Profile} {profile : Profile} {probe : Probe}
    (h : probe ∈ plan.probes processed profile) :
    ∃ owner, (owner = .unscoped ∨ owner = profile ∨ owner ∈ processed) ∧
      probe.location ∈ plan.ownFiles owner := by
  obtain ⟨root, hroot, h⟩ := List.mem_flatMap.mp h
  suffices hown : ∃ owner, (owner = .unscoped ∨ owner = profile ∨ owner ∈ processed) ∧
      probe.location ∈ plan.ownFilesAt owner root by
    obtain ⟨owner, howner, hlocation⟩ := hown
    exact ⟨owner, howner, List.mem_flatMap.mpr ⟨root, hroot, hlocation⟩⟩
  unfold locationProbes at h
  split at h
  · next hdirectory =>
    obtain ⟨name, hname, h⟩ := List.mem_flatMap.mp h
    obtain ⟨handler, hhandler, h⟩ := List.mem_flatMap.mp h
    have hown (owner : Profile) :
        ownFile owner (root ++ name) handler ∈ plan.ownFilesAt owner root := by
      rw [ownFilesAt, if_pos hdirectory]
      exact List.mem_flatMap.mpr ⟨name, hname, List.mem_map_of_mem hhandler⟩
    cases hprofile : profile.name? with
    | none =>
      simp only [stemProbes, hprofile, List.mem_singleton] at h
      rw [h]
      exact ⟨.unscoped, .inl rfl, hown .unscoped⟩
    | some profileName =>
      simp only [stemProbes, hprofile, List.cons_append, List.mem_cons, List.mem_append,
        List.mem_map, List.not_mem_nil, or_false] at h
      rcases h with rfl | rfl | ⟨other, hother, rfl⟩ | rfl
      · exact ⟨profile, .inr (.inl rfl), ownFile_of_some hprofile .. ▸ hown profile⟩
      · exact ⟨profile, .inr (.inl rfl), ownFile_of_some hprofile .. ▸ hown profile⟩
      · obtain ⟨owner, howner, hotherName⟩ := List.mem_filterMap.mp hother
        exact ⟨owner, .inr (.inr howner), ownFile_of_some hotherName .. ▸ hown owner⟩
      · exact ⟨.unscoped, .inl rfl, hown .unscoped⟩
  · next hfile =>
    obtain rfl := List.mem_singleton.mp h
    refine ⟨.unscoped, .inl rfl, ?_⟩
    rw [ownFilesAt, if_neg hfile]
    exact List.mem_singleton_self _

end Plan

/-! ### The documents of a file -/

namespace Loader

variable {loader : Loader} {env : Environment} {report : Report} {files : List (String × String)}

/-- The documents of the file at a location, read with the format that is meant for it. A file
that is not there has none. -/
def documentsAt (loader : Loader) (store : Store) (env : Environment) (location : String) :
    Except Failure (List Document) :=
  if (store.resource location).isThere then
    match (loader.registry.forLocation? location).bind loader.registry.get? with
    | some format =>
      Document.load format (Run.sourceName location) (store.resource location) env.resolve
    | none => .error (.unknownExtension location)
  else .ok []

section Names

variable {store : Store} {location other : String} {documents others : List Document}
  {i j : Nat} {p q : Document}

/-- The documents of a file are named after its location, each with its index. -/
private theorem name_of_documentsAt
    (hat : loader.documentsAt store env location = .ok documents) (hp : documents[i]? = some p) :
    p.source.name = Format.documentName (Run.sourceName location) i documents.length := by
  unfold documentsAt at hat
  split at hat
  · split at hat
    · exact Document.name_of_load hat hp
    · cases hat
  · cases hat
    cases hp

/-- Documents of one name are the same document of the same file. -/
theorem documentsAt_inj (hat : loader.documentsAt store env location = .ok documents)
    (hother : loader.documentsAt store env other = .ok others) (hp : documents[i]? = some p)
    (hq : others[j]? = some q) (hname : p.source.name = q.source.name) :
    location = other ∧ i = j ∧ p = q := by
  rw [name_of_documentsAt hat hp, name_of_documentsAt hother hq] at hname
  obtain ⟨hi, -⟩ := List.getElem?_eq_some_iff.mp hp
  obtain ⟨hj, -⟩ := List.getElem?_eq_some_iff.mp hq
  obtain ⟨rfl, rfl⟩ := Format.documentName_inj hi hj hname
  cases hat.symm.trans hother
  exact ⟨rfl, rfl, Option.some.inj (hp.symm.trans hq)⟩

end Names

/-- The documents of the file at a location, read with the format of an index. A file that is not
there or has no extension has none. -/
def documentsBy (loader : Loader) (store : Store) (env : Environment) (index : Nat)
    (location : String) : Except Failure (List Document) :=
  if (store.resource location).isThere && (store.resource location).extension?.isSome then
    match loader.registry.get? index with
    | some format =>
      Document.load format (Run.sourceName location) (store.resource location) env.resolve
    | none => .error (.unknownExtension location)
  else .ok []

/-- Every visit of a load was made, with a format that the registry knows. -/
private theorem Course.exists_run (course : Course loader (.texts files) env report)
    {visit : Visit} (hvisit : visit ∈ loader.visits (.texts files) env report) :
    ∃ before after : Run, before.visit (loader.context (.texts files) report) visit.sweep.pass
        visit.sweep.profile visit.probe = (after, none) ∧
      after.memo.Extends (loader.lastRun (.texts files) env).memo := by
  obtain ⟨sweep, hsweep, hvisit⟩ := List.mem_flatMap.mp hvisit
  have hprobe := List.mem_map_of_mem (f := Visit.probe) hvisit
  rw [Sweep.map_probe_visits] at hprobe
  obtain ⟨before, after, -, hrun, hextends⟩ := (course.made sweep hsweep).exists_visit hprobe
  rw [Sweep.sweep_eq_of_mem_visits hvisit]
  exact ⟨before, after, hrun, hextends⟩

/-- Every visit of a load has the documents that its file has for the format of the probe. -/
theorem Course.documentsBy_eq (course : Course loader (.texts files) env report) {visit : Visit}
    (hvisit : visit ∈ loader.visits (.texts files) env report) {index : Nat}
    (hindex : visit.probe.index = some index) :
    loader.documentsBy (.texts files) (hide env) index visit.probe.location =
      .ok visit.documents := by
  have hdocuments := documents_of_mem_visits hvisit
  obtain ⟨before, after, hrun, hextends⟩ := course.exists_run hvisit
  unfold documentsBy
  split
  · next hthere =>
    have hthere := Bool.and_eq_true_iff.mp hthere
    obtain ⟨other, documents, hother, hlookup⟩ :=
      Run.exists_read_of_visit hrun hthere.1 hthere.2
    obtain rfl : index = other := Option.some.inj (hindex.symm.trans hother)
    have hkept : (loader.lastRun (.texts files) env).memo.entries.lookup
        (index, ((Store.texts files).resource visit.probe.location).identity) = some documents :=
      hextends _ _ hlookup
    obtain ⟨location, read, -, hidentity, hread, hload⟩ := course.faithful_memo _ _ _ hkept
    -- The identity of a text is its location.
    obtain rfl : location = visit.probe.location := hidentity
    rw [show loader.registry.get? index = some read from hread]
    have hall : visit.documents = documents := by
      rw [hdocuments, Probe.documents]
      simp [hthere, hindex, hkept]
    exact hload.trans (congrArg Except.ok hall.symm)
  · next hmissing => rw [hdocuments, Probe.documents, if_neg hmissing]

/-- Every visit of a load has the documents of its file. -/
theorem Course.documentsAt_eq (course : Course loader (.texts files) env report)
    (hplain : loader.registry.Plain) {visit : Visit}
    (hvisit : visit ∈ loader.visits (.texts files) env report) :
    loader.documentsAt (.texts files) (hide env) visit.probe.location = .ok visit.documents := by
  obtain ⟨before, after, hrun, -⟩ := course.exists_run hvisit
  obtain ⟨index, format, hindex, hget⟩ := Run.exists_index_of_visit hrun
  have hmeant : loader.registry.forLocation? visit.probe.location = some index := by
    obtain ⟨sweep, -, hvisit⟩ := List.mem_flatMap.mp hvisit
    have hprobe := List.mem_map_of_mem (f := Visit.probe) hvisit
    rw [Sweep.map_probe_visits] at hprobe
    obtain ⟨root, -, hroot⟩ := List.mem_flatMap.mp hprobe
    exact (Plan.index_of_consistent hplain.consistent hroot).symm.trans hindex
  have hextension : ((Store.texts files).resource visit.probe.location).extension?.isSome = true :=
    hplain.extension?_ofText hmeant _
  have hread := course.documentsBy_eq hvisit hindex
  unfold documentsBy at hread
  rw [hextension, Bool.and_true] at hread
  unfold documentsAt
  rwa [hmeant, Option.bind_some]

/-- A sweep visits whatever is looked at for its profile. -/
theorem exists_visit_of_mem_probes {store : Store} {sweep : Sweep}
    (hsweep : sweep ∈ report.sweeps (hide env)) {probe : Probe} (hprobe : probe ∈
      (loader.context store report).plan.probes sweep.earlier sweep.profile) :
    ∃ visit ∈ loader.visits store env report, visit.sweep = sweep ∧ visit.probe = probe := by
  rw [← Sweep.map_probe_visits sweep (loader.context store report)
    (loader.lastRun store env).memo] at hprobe
  obtain ⟨visit, hvisit, rfl⟩ := List.mem_map.mp hprobe
  exact ⟨visit, List.mem_flatMap.mpr ⟨sweep, hsweep, hvisit⟩,
    Sweep.sweep_eq_of_mem_visits hvisit, rfl⟩

/-- A sweep visits the own files of its profile for what declares no profile. -/
theorem Course.exists_visit (course : Course loader (.texts files) env report)
    (hplain : loader.registry.Plain) {sweep : Sweep} (hsweep : sweep ∈ report.sweeps (hide env))
    {location : String} (hlocation : location ∈
      (loader.context (.texts files) report).plan.ownFiles sweep.profile) :
    ∃ visit ∈ loader.visits (.texts files) env report, visit.sweep = sweep ∧
      visit.probe.selector.name? = none ∧
      loader.documentsAt (.texts files) (hide env) location = .ok visit.documents := by
  obtain ⟨probe, hprobe, rfl, hselector⟩ :=
    Plan.exists_probe_of_mem_ownFiles hlocation sweep.earlier
  obtain ⟨visit, hvisit, hself, rfl⟩ := exists_visit_of_mem_probes hsweep hprobe
  exact ⟨visit, hvisit, hself, hselector, course.documentsAt_eq hplain hvisit⟩

end Loader

end LayeredConfig
