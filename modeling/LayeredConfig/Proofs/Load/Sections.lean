import LayeredConfig.Proofs.Load.Completeness

/-!
# Sections in the files of other profiles

A document in the file of one profile may be meant for another one. A load looks for such sections
when it processes the profile that they are meant for, in the files of that profile, in those of
the profiles that are done, and in those of the unscoped profile. So it matters which of the two
profiles comes first: the files of a profile that comes later are not looked at again for the
profiles before it. It also matters what the environment accepts at that time. For a profile with
a plain name this is what it accepts when the queue is empty; for a name that reads as an
expression, more profiles may have become active by then.

## Main definitions

* `Report.Turn`: a profile is processed after certain others.

## Main results

* `Plan.mem_probes_of_own`: which files are looked at for a profile.
* `Loader.accepts_in_turn`: what is meant for a plain name is accepted in its turn.
* `Loader.added_from_other_files`: when a load adds the sections for a profile.
-/

namespace LayeredConfig

/-- A profile with the given name is processed right after those in `earlier`. -/
structure Report.Turn (report : Report) (earlier : List Profile) (profile : Profile)
    (name : String) : Prop where
  exists_later : ∃ later, report.processed = earlier ++ profile :: later
  name_eq : profile.name? = some name

/-! ### The looks for a profile -/

namespace Plan

variable {plan : Plan} {processed : List Profile} {profile owner : Profile} {name location : String}

private theorem mem_stemProbes_of_own (hname : profile.name? = some name)
    (howner : owner = .unscoped ∨ owner = profile ∨ owner ∈ processed) (stem : String)
    (handler : Handler) :
    { location := ownFile owner stem handler, index := some handler.index, selector := profile } ∈
      stemProbes processed profile stem handler := by
  simp only [stemProbes, hname, List.cons_append, List.mem_cons, List.mem_append, List.mem_map,
    List.not_mem_nil, or_false]
  rcases howner with rfl | rfl | hdone
  · exact .inr (.inr (.inr rfl))
  · rw [ownFile_of_some hname]
    exact .inr (.inl rfl)
  · cases hother : owner.name? with
    | none =>
      rw [ownFile, hother]
      exact .inr (.inr (.inr rfl))
    | some other =>
      rw [ownFile_of_some hother]
      refine .inr (.inr (.inl ⟨other, ?_, rfl⟩))
      exact List.mem_filterMap.mpr ⟨owner, hdone, hother⟩

/-- The files of a directory that are looked at for a named profile: its own, those of the unscoped
profile, and those of the profiles that are done. -/
theorem mem_probes_of_own (hname : profile.name? = some name)
    (howner : owner = .unscoped ∨ owner = profile ∨ owner ∈ processed) {root stem : String}
    {handler : Handler} (hroot : root ∈ plan.locations) (hdirectory : Path.isDirectory root = true)
    (hstem : stem ∈ plan.names) (hhandler : handler ∈ plan.registry.handlers) :
    { location := ownFile owner (root ++ stem) handler, index := some handler.index,
      selector := profile } ∈ plan.probes processed profile := by
  refine List.mem_flatMap.mpr ⟨root, hroot, ?_⟩
  rw [locationProbes, if_pos hdirectory]
  exact List.mem_flatMap.mpr ⟨stem, hstem, List.mem_flatMap.mpr
    ⟨handler, hhandler, mem_stemProbes_of_own hname howner _ handler⟩⟩

/-- The own files of a profile that is done are looked at for a later one. -/
theorem exists_probe_of_own (hname : profile.name? = some name)
    (howner : owner = .unscoped ∨ owner = profile ∨ owner ∈ processed)
    (h : location ∈ plan.ownFiles owner) :
    ∃ probe ∈ plan.probes processed profile,
      probe.location = location ∧ probe.selector = profile := by
  obtain ⟨root, hroot, h⟩ := List.mem_flatMap.mp h
  unfold ownFilesAt at h
  split at h
  · next hdirectory =>
    obtain ⟨stem, hstem, h⟩ := List.mem_flatMap.mp h
    obtain ⟨handler, hhandler, rfl⟩ := List.mem_map.mp h
    exact ⟨_, mem_probes_of_own hname howner hroot hdirectory hstem hhandler, rfl, rfl⟩
  · next hfile =>
    split at h
    · obtain rfl := List.mem_singleton.mp h
      refine ⟨⟨location, plan.registry.forLocation? location, profile⟩, ?_, rfl, rfl⟩
      refine List.mem_flatMap.mpr ⟨location, hroot, ?_⟩
      rw [locationProbes, if_neg hfile]
      exact List.mem_singleton_self _
    · cases h

/-- For the unscoped profile only its own files are looked at. -/
theorem mem_ownFiles_of_mem_probes {probe : Probe} (h : probe ∈ plan.probes processed .unscoped) :
    probe.location ∈ plan.ownFiles .unscoped := by
  have hselector : probe.selector.name? = none := by
    rcases selector_of_mem_probes h with hself | hself <;> rw [hself] <;> rfl
  have hmem : probe.location ∈ (plan.ownFiles .unscoped).flatMap fun file => [file] := by
    rw [← flatMap_probes _ plan processed]
    exact List.mem_flatMap.mpr ⟨probe, h, by simp [hselector]⟩
  simpa using hmem

end Plan

namespace Loader

variable {loader : Loader} {store : Store} {env : Environment} {report : Report}
  {files : List (String × String)} {earlier : List Profile} {profile : Profile}
  {name location : String} {documents : List Document} {document : Document}

namespace Course

/-- In the turn of a profile there is a sweep for it, in the environment in which it and the
profiles before it are active. -/
theorem exists_sweep_of_turn (course : Course loader store env report)
    (hturn : report.Turn earlier profile name) :
    ∃ sweep ∈ report.sweeps (hide env), sweep.pass = .positive ∧ sweep.profile = profile ∧
      sweep.earlier = earlier ∧ sweep.env = (hide env).announcing (earlier ++ [profile]) := by
  obtain ⟨later, hprocessed⟩ := hturn.exists_later
  obtain ⟨sweep, hsweep, hpass, hprofile, hearlier⟩ :=
    @Sweep.exists_mem_ofProfiles (hide env) [] earlier later profile
  have hmem : sweep ∈ report.sweeps (hide env) := by
    rw [Report.sweeps, hprocessed]
    exact List.mem_append_left _ hsweep
  refine ⟨sweep, hmem, hpass, hprofile, hearlier, ?_⟩
  rw [(course.made sweep hmem).env_eq, hprofile, hearlier, List.nil_append]

/-- A name has one turn. -/
theorem turn_unique (course : Course loader store env report) {done : List Profile}
    {other : Profile} (hturn : report.Turn earlier profile name)
    (hother : report.Turn done other name) : earlier = done ∧ profile = other := by
  obtain ⟨later, hprocessed⟩ := hturn.exists_later
  obtain ⟨later', hprocessed'⟩ := hother.exists_later
  have hnodup := course.nodup_processed
  rw [hprocessed, profileNames, List.map_append, List.map_cons, hturn.name_eq, List.nodup_middle,
    List.nodup_cons, List.mem_append, not_or] at hnodup
  have hnot (profiles : List Profile) (h : some name ∉ profileNames profiles) :
      other ∉ profiles := fun hmem => h (hother.name_eq ▸ List.mem_map_of_mem hmem)
  have hsplit := (List.append_cons_inj_of_notMem (hnot _ hnodup.1.1) (hnot _ hnodup.1.2)).mp
    (hprocessed.symm.trans hprocessed')
  exact ⟨hsplit.1, hsplit.2.1⟩

/-- The unscoped profile is done before any other one has its turn. -/
theorem mem_turn_iff (course : Course loader store env report)
    (hturn : report.Turn earlier profile name) {owner : Profile} :
    owner ∈ earlier ++ [profile] ↔ owner = .unscoped ∨ owner = profile ∨ owner ∈ earlier := by
  have hunscoped : .unscoped ∈ earlier := by
    obtain ⟨later, hprocessed⟩ := hturn.exists_later
    obtain ⟨more, hmore⟩ := course.exists_processed_eq
    cases earlier with
    | nil =>
      obtain ⟨rfl, -⟩ := List.cons.inj (hmore.symm.trans hprocessed)
      cases hturn.name_eq
    | cons first rest =>
      obtain ⟨rfl, -⟩ := List.cons.inj (hmore.symm.trans hprocessed)
      exact List.mem_cons_self
  rw [List.mem_append, List.mem_singleton]
  constructor
  · rintro (hdone | rfl)
    · exact .inr (.inr hdone)
    · exact .inr (.inl rfl)
  · rintro (rfl | rfl | hdone)
    · exact .inl hunscoped
    · exact .inr rfl
    · exact .inl hdone

/-- In the turn of a profile a load adds what declares its name and is accepted, in every file
that is looked at for the profile. -/
theorem added_of_turn (course : Course loader store env report)
    (hturn : report.Turn earlier profile name) {probe : Probe}
    (hprobe : probe ∈ (loader.context store report).plan.probes earlier profile)
    (hselector : probe.selector = profile) :
    ∃ visit ∈ loader.visits store env report, visit.probe = probe ∧
      ∀ document ∈ visit.documents, name ∈ document.declared →
        ((hide env).announcing (earlier ++ [profile])).accepts document.declared = .ok true →
        document.source.name ∈ report.added := by
  obtain ⟨sweep, hsweep, hpass, rfl, rfl, henv⟩ := course.exists_sweep_of_turn hturn
  obtain ⟨visit, hvisit, hself, rfl⟩ := exists_visit_of_mem_probes hsweep hprobe
  refine ⟨visit, hvisit, rfl, fun document hdocument hlisted haccepts => ?_⟩
  refine course.added_of_takesPart hvisit hdocument ?_
  rw [hself, hpass, hselector, henv]
  exact Document.takesPart_of_listed hturn.name_eq hlisted haccepts

/-- A section that is meant for one profile is picked up in the turn of that profile, or in the
last sweep. -/
theorem own_of_found (h : (loader.load store env).result = .ok report)
    (course : Course loader store env report) (hturn : report.Turn earlier profile name)
    {visit : Visit} {pickup : Pickup} (hvisit : visit ∈ loader.visits store env report)
    (hfound : pickup ∈ visit.found) (hdeclared : pickup.document.declared = [name]) :
    (∃ owner ∈ earlier ++ [profile],
        visit.probe.location ∈ (loader.context store report).plan.ownFiles owner) ∧
      ((hide env).announcing (earlier ++ [profile])).accepts [name] = .ok true ∨
    visit.probe.location ∈ (loader.context store report).plan.ownFiles .unscoped ∧
      (loader.drained store env).env.accepts [name] = .ok true := by
  obtain ⟨sweep, hsweep, hvisit⟩ := List.mem_flatMap.mp hvisit
  have hself := Sweep.sweep_eq_of_mem_visits hvisit
  have hprobe := List.mem_map_of_mem (f := Visit.probe) hvisit
  rw [Sweep.map_probe_visits] at hprobe
  obtain ⟨-, htakes, -⟩ := Visit.mem_found_iff.mp hfound
  obtain ⟨haccepts, hnamed⟩ := Document.accepts_of_takesPart htakes (by simp [hdeclared])
  rw [hself, hdeclared] at haccepts
  rcases List.mem_append.mp hsweep with hsearch | hlast
  · -- The sweep is for the profile that the section is meant for.
    obtain ⟨hpass, done, later, hprocessed, hearlier⟩ :=
      Sweep.exists_split_of_mem_ofProfiles hsearch
    obtain ⟨listed, hlisted, hselector⟩ := hnamed (hself ▸ hpass)
    obtain rfl : listed = name := List.mem_singleton.mp (hdeclared ▸ hlisted)
    have hprofile : visit.probe.selector = sweep.profile := by
      refine (Plan.selector_of_mem_probes hprobe).resolve_right fun hunscoped => ?_
      rw [hunscoped] at hselector
      cases hselector
    obtain ⟨rfl, rfl⟩ := course.turn_unique hturn
      ⟨⟨later, hprocessed⟩, hprofile ▸ hselector⟩
    rw [List.nil_append] at hearlier
    rw [(course.made sweep hsweep).env_eq, hearlier] at haccepts
    refine .inl ⟨?_, haccepts⟩
    rw [hearlier] at hprobe
    obtain ⟨owner, howner, hown⟩ := Plan.exists_own_of_mem_probes hprobe
    exact ⟨owner, (course.mem_turn_iff hturn).mpr howner, hown⟩
  · obtain rfl := List.mem_singleton.mp hlast
    exact .inr ⟨Plan.mem_ownFiles_of_mem_probes hprobe, env_finalSweep h ▸ haccepts⟩

/-- Where extensions are plain, a section that is meant for one profile is added exactly when it is
accepted in the turn of that profile, in a file of the profile or of one before it, or when the
queue is empty, in a file of the unscoped profile. -/
theorem section_added_iff (h : (loader.load (.texts files) env).result = .ok report)
    (course : Course loader (.texts files) env report) (hplain : loader.registry.Plain)
    (hturn : report.Turn earlier profile name)
    (hat : loader.documentsAt (.texts files) (hide env) location = .ok documents)
    (hdocument : document ∈ documents) (hdeclared : document.declared = [name]) :
    document.source.name ∈ report.added ↔
      (∃ owner ∈ earlier ++ [profile],
          location ∈ (loader.context (.texts files) report).plan.ownFiles owner) ∧
        ((hide env).announcing (earlier ++ [profile])).accepts [name] = .ok true ∨
      location ∈ (loader.context (.texts files) report).plan.ownFiles .unscoped ∧
        (loader.drained (.texts files) env).env.accepts [name] = .ok true := by
  constructor
  · intro hadded
    obtain ⟨visit, hvisit, hname⟩ := course.mem_added_iff.mp hadded
    obtain ⟨pickup, hfound, hname⟩ := List.mem_map.mp hname
    obtain ⟨index, hindex⟩ := List.getElem?_of_mem hdocument
    obtain ⟨rfl, -, hsame⟩ := documentsAt_inj (course.documentsAt_eq hplain hvisit) hat
      (Visit.getElem?_of_mem_found hfound) hindex hname
    exact course.own_of_found h hturn hvisit hfound (hsame ▸ hdeclared)
  · rintro (⟨⟨owner, howner, hown⟩, haccepts⟩ | ⟨hown, haccepts⟩)
    · obtain ⟨probe, hprobe, rfl, hselector⟩ :=
        Plan.exists_probe_of_own hturn.name_eq ((course.mem_turn_iff hturn).mp howner) hown
      obtain ⟨visit, hvisit, rfl, hadded⟩ := course.added_of_turn hturn hprobe hselector
      have hsame := Except.ok.inj (hat.symm.trans (course.documentsAt_eq hplain hvisit))
      exact hadded document (hsame ▸ hdocument) (by simp [hdeclared]) (hdeclared ▸ haccepts)
    · obtain ⟨visit, hvisit, hself, hselector, hread⟩ :=
        course.exists_visit hplain (report.finalSweep_mem_sweeps _) hown
      have hsame := Except.ok.inj (hat.symm.trans hread)
      refine course.added_of_takesPart hvisit (hsame ▸ hdocument) ?_
      rw [hself, env_finalSweep h]
      exact Document.takesPart_of_accepts hselector (by simp [hdeclared]) (hdeclared ▸ haccepts)

end Course

/-- A document that is meant for a plain name and is accepted when the queue is empty is accepted
in the turn of the profile: the profile is active by then, or none ever is. -/
theorem accepts_in_turn (h : (loader.load store env).result = .ok report)
    (hturn : report.Turn earlier profile name) (hread : Expression.parse name = .ok (.name name))
    (haccepts : (loader.drained store env).env.accepts [name] = .ok true) :
    ((hide env).announcing (earlier ++ [profile])).accepts [name] = .ok true := by
  obtain ⟨course⟩ := exists_course h
  obtain ⟨before, settled, hbefore, hsettled, -, hmem⟩ := exists_settled h
  obtain ⟨later, hprocessed⟩ := hturn.exists_later
  by_cases hnone : settled = []
  · -- No profile becomes active, so the environment stays the same from the turn on.
    have hlater : (hide env).newNames later = [] :=
      List.eq_nil_iff_forall_not_mem.mpr fun other hother => by
        have hasked := ((Environment.mem_newNames hbefore).mp hother).1
        have hactive := (hmem other).mpr (by simp [hprocessed, hasked])
        simp [hnone] at hactive
    rw [(env_drained h).2, hprocessed, ← List.singleton_append, ← List.append_assoc,
      Environment.announcing_append_of_nil hlater] at haccepts
    exact haccepts
  · have hname : name ∈ settled :=
      (Environment.accepts_name_iff hread
        (Environment.effective_of_active hsettled hnone)).mp haccepts
    obtain ⟨done, rest, hsplit⟩ := List.append_of_mem ((hmem name).mp hname)
    obtain ⟨-, rfl⟩ := course.turn_unique hturn ⟨⟨rest, hsplit⟩, rfl⟩
    have hactive := Environment.active_announcing hbefore (earlier ++ [.requested name])
    have hself := (Environment.mem_active_newNames hbefore).mpr
      (.inr (show .requested name ∈ earlier ++ [.requested name] by simp))
    exact (Environment.accepts_name_iff hread
      (Environment.effective_of_active hactive (List.ne_nil_of_mem hself))).mpr hself

/-- A load reads the file of each profile that it processes. It adds the documents there that are
meant for one profile alone, and accepted in its turn, if the owner of the file is that profile or
comes before it; for a plain name it is enough that they are accepted when the queue is empty.
Where extensions are plain, sections for one profile are added exactly when they are accepted in
its turn in a file of this profile or of one before it, or accepted when the queue is empty in a
file of the unscoped profile. -/
theorem added_from_other_files (h : (loader.load (.texts files) env).result = .ok report)
    {root stem ownerName : String} {handler : Handler} {owner : Profile}
    (hroot : root ∈ report.locations) (hdirectory : Path.isDirectory root = true)
    (hstem : stem ∈ report.names) (hhandler : handler ∈ loader.registry.handlers)
    (howner : owner ∈ report.processed) (hname : owner.name? = some ownerName) :
    let plan := (loader.context (.texts files) report).plan
    let settled := (loader.drained (.texts files) env).env
    let location := Plan.profileFile (root ++ stem) ownerName handler.extension
    ∃ documents,
      loader.documentsBy (.texts files) (hide env) handler.index location = .ok documents ∧
      ∀ document ∈ documents, ∀ earlier profile name, report.Turn earlier profile name →
        document.declared = [name] →
        let turn := (hide env).announcing (earlier ++ [profile])
        (owner ∈ earlier ++ [profile] →
          turn.accepts [name] = .ok true ∨
            Expression.parse name = .ok (.name name) ∧ settled.accepts [name] = .ok true →
          document.source.name ∈ report.added) ∧
        (loader.registry.Plain →
          (document.source.name ∈ report.added ↔
            (∃ other ∈ earlier ++ [profile], location ∈ plan.ownFiles other) ∧
              turn.accepts [name] = .ok true ∨
            location ∈ plan.ownFiles .unscoped ∧ settled.accepts [name] = .ok true) ∧
          (document.source.name ∈ report.added →
            document.source ∈ (loader.layers (.texts files) env).collected)) := by
  obtain ⟨course⟩ := exists_course h
  intro plan settled location
  obtain ⟨before, after, hsplit⟩ := List.append_of_mem howner
  have hownerTurn : report.Turn before owner ownerName := ⟨⟨after, hsplit⟩, hname⟩
  have hlook {processed : List Profile} {profile : Profile} {name : String}
      (hself : profile.name? = some name)
      (hfile : owner = .unscoped ∨ owner = profile ∨ owner ∈ processed) :
      { location, index := some handler.index, selector := profile } ∈
        plan.probes processed profile := by
    rw [show location = Plan.ownFile owner (root ++ stem) handler from
      (Plan.ownFile_of_some hname ..).symm]
    exact Plan.mem_probes_of_own hself hfile hroot hdirectory hstem hhandler
  -- In the turn of its owner the file is read.
  obtain ⟨visit, hvisit, hprobe, -⟩ :=
    course.added_of_turn hownerTurn (hlook hname (.inr (.inl rfl))) rfl
  have hread := course.documentsBy_eq hvisit (congrArg Probe.index hprobe)
  rw [hprobe] at hread
  refine ⟨visit.documents, hread, fun document hdocument earlier profile name hturn hdeclared => ?_⟩
  refine ⟨fun hearlier haccepts => ?_, fun hplain => ?_⟩
  · have hsoon : ((hide env).announcing (earlier ++ [profile])).accepts [name] = .ok true :=
      haccepts.elim id fun hlate => accepts_in_turn h hturn hlate.1 hlate.2
    obtain ⟨again, hagain, hprobe', hadded⟩ := course.added_of_turn hturn
      (hlook hturn.name_eq ((course.mem_turn_iff hturn).mp hearlier)) rfl
    have hread' := course.documentsBy_eq hagain (congrArg Probe.index hprobe')
    rw [hprobe'] at hread'
    have hsame := Except.ok.inj (hread.symm.trans hread')
    exact hadded document (hsame ▸ hdocument) (by simp [hdeclared]) (hdeclared ▸ hsoon)
  · have hat := course.documentsAt_eq hplain hvisit
    rw [hprobe] at hat
    exact ⟨course.section_added_iff h hplain hturn hat hdocument hdeclared,
      fun hadded => (course.exists_pickup_of_added hplain hat hdocument hadded).1⟩

/-! ### A section that is added -/

/-- A loader with one directory and two formats. -/
def twoFormatLoader : Loader where
  search := { locations := some "file:/" }
  registry := ⟨[.properties, .yaml]⟩

/-- The file of one profile has a section for another one. -/
def crossingFiles : List (String × String) :=
  [("file:/application-dev.yml", "x: dev\n---\nprofiles: prod\nx: dev-prod\n")]

def devFirstReport : Report where
  locations := ["file:/"]
  names := ["application"]
  processed := [.unscoped, .requested "dev", .requested "prod"]
  added := ["applicationConfig: [file:/application-dev.yml] (document #1)",
    "applicationConfig: [file:/application-dev.yml] (document #0)"]
  active := ["dev", "prod"]

theorem section_of_prod_added :
    (twoFormatLoader.load (.texts crossingFiles) { activeNames := ["dev", "prod"] }).result =
        .ok devFirstReport ∧
      ∃ documents, twoFormatLoader.documentsBy (.texts crossingFiles)
          (hide { activeNames := ["dev", "prod"] }) 1 "file:/application-dev.yml" = .ok documents ∧
        documents.map Document.declared = [[], ["prod"]] ∧
        ∀ document ∈ documents, document.declared = ["prod"] →
          document.source.name ∈ devFirstReport.added := by
  let env : Environment := { activeNames := ["dev", "prod"] }
  have hload : (twoFormatLoader.load (.texts crossingFiles) env).result = .ok devFirstReport := by
    decide +kernel
  have hroot : "file:/" ∈ devFirstReport.locations := List.mem_singleton_self _
  have hstem : "application" ∈ devFirstReport.names := List.mem_singleton_self _
  have hhandler : (⟨1, "yml"⟩ : Handler) ∈ twoFormatLoader.registry.handlers := by decide +kernel
  have howner : .requested "dev" ∈ devFirstReport.processed := by simp [devFirstReport]
  have hturn : devFirstReport.Turn [.unscoped, .requested "dev"] (.requested "prod") "prod" :=
    ⟨⟨[], rfl⟩, rfl⟩
  obtain ⟨haccepts, hdeclared⟩ :
      (twoFormatLoader.drained (.texts crossingFiles) env).env.accepts ["prod"] = .ok true ∧
      (twoFormatLoader.documentsBy (.texts crossingFiles) (hide env) 1
        "file:/application-dev.yml").map (List.map Document.declared) = .ok [[], ["prod"]] := by
    decide +kernel
  obtain ⟨documents, hread, hadded⟩ :=
    added_from_other_files hload hroot (by decide) hstem hhandler howner rfl
  have hlocation : Plan.profileFile ("file:/" ++ "application") "dev" "yml" =
      "file:/application-dev.yml" := by decide
  rw [hlocation] at hread
  rw [hread] at hdeclared
  refine ⟨hload, documents, hread, Except.ok.inj hdeclared, fun document hdocument hprod => ?_⟩
  exact (hadded document hdocument _ _ _ hturn hprod).1 (by simp)
    (.inr ⟨by with_unfolding_all rfl, haccepts⟩)

/-! ### Sections that are left out -/

/-- The other profile is processed first. -/
def prodFirstReport : Report where
  locations := ["file:/"]
  names := ["application"]
  processed := [.unscoped, .requested "prod", .requested "dev"]
  added := ["applicationConfig: [file:/application-dev.yml] (document #0)"]
  active := ["prod", "dev"]

/-- The name of the second profile reads as an expression, which holds only when the profile that
it includes is active. -/
def alternativeFiles : List (String × String) :=
  [("file:/application-q.properties", "profiles=a|b\n"),
    ("file:/application-a|b.properties", "profiles.include=a\n")]

def alternativeReport : Report where
  locations := ["file:/"]
  names := ["application"]
  processed := [.unscoped, .requested "q", .requested "a|b", .requested "a"]
  added := ["applicationConfig: [file:/application-a|b.properties]"]
  active := ["q", "a|b", "a"]

/-- What the documents of a file declare, and under which names. -/
def sectionsAt (loader : Loader) (files : List (String × String)) (env : Environment)
    (index : Nat) (location : String) : Except Failure (List (List String × String)) :=
  (loader.documentsBy (.texts files) (hide env) index location).map
    (List.map fun document => (document.declared, document.source.name))

theorem accepted_sections_left_out :
    ((twoFormatLoader.load (.texts crossingFiles) { activeNames := ["prod", "dev"] }).result =
        .ok prodFirstReport ∧
      twoFormatLoader.sectionsAt crossingFiles { activeNames := ["prod", "dev"] } 1
          "file:/application-dev.yml" =
        .ok [([], "applicationConfig: [file:/application-dev.yml] (document #0)"),
          (["prod"], "applicationConfig: [file:/application-dev.yml] (document #1)")] ∧
      (twoFormatLoader.drained (.texts crossingFiles)
        { activeNames := ["prod", "dev"] }).env.accepts ["prod"] = .ok true ∧
      "applicationConfig: [file:/application-dev.yml] (document #1)" ∉ prodFirstReport.added) ∧
    (twoFormatLoader.load (.texts alternativeFiles) { activeNames := ["q", "a|b"] }).result =
        .ok alternativeReport ∧
      twoFormatLoader.sectionsAt alternativeFiles { activeNames := ["q", "a|b"] } 0
          "file:/application-q.properties" =
        .ok [(["a|b"], "applicationConfig: [file:/application-q.properties]")] ∧
      (twoFormatLoader.drained (.texts alternativeFiles)
        { activeNames := ["q", "a|b"] }).env.accepts ["a|b"] = .ok true ∧
      "applicationConfig: [file:/application-q.properties]" ∉ alternativeReport.added := by
  decide +kernel

end Loader

end LayeredConfig
