import LayeredConfig.Proofs.Layers.Blocks
import LayeredConfig.Proofs.Load.OwnFiles

/-!
# The order of a load without restricted documents

Where no document declares profiles, a look at a file for a named profile and a look in the last
sweep find nothing. What remains are the looks at the own files of the processed profiles. So the
added sources can be listed without running the load: profile by profile, the last one first, then
file by file in probe order, and the documents of each file from the last to the first.

## Main definitions

* `Loader.namesOf`: the names of the documents of a file, the last one first.
* `Loader.Unrestricted`: the files that a load looks at declare no profiles.

## Main results

* `Visit.names_of_free`: what a visit finds where no document declares profiles.
* `Loader.Course.added_eq_sweeps`: the sources are added sweep by sweep.
* `Loader.added_eq_reference`: the list of the added sources.
-/

namespace LayeredConfig

namespace Visit

variable {visit : Visit}

/-- Where no document declares profiles, a visit in the positive pass finds all of them or none. -/
theorem names_of_free (hpass : visit.sweep.pass = .positive)
    (hfree : ∀ document ∈ visit.documents, document.declared = []) :
    visit.names = if visit.probe.selector.name? = none then
      visit.documents.reverse.map fun document => document.source.name else [] := by
  have hmem (entry : Document × Nat) (hentry : entry ∈ visit.documents.zipIdx) :
      entry.1.declared = [] := hfree _ (List.fst_mem_of_mem_zipIdx hentry)
  rw [names, found, Sweep.picked, hpass]
  split
  · next hselector =>
    have hall : visit.documents.zipIdx.filter (fun entry =>
        entry.1.takesPart .positive visit.probe.selector visit.sweep.env) =
          visit.documents.zipIdx :=
      List.filter_eq_self.mpr fun entry hentry =>
        (Document.takesPart_positive_iff hselector).mpr (hmem entry hentry)
    have hdocuments : visit.documents = visit.documents.zipIdx.map Prod.fst :=
      (List.zipIdx_map_fst 0 visit.documents).symm
    rw [hall, List.map_map]
    conv_rhs => rw [hdocuments, ← List.map_reverse, List.map_map]
    rfl
  · next hselector =>
    have hnone : visit.documents.zipIdx.filter (fun entry =>
        entry.1.takesPart .positive visit.probe.selector visit.sweep.env) = [] :=
      List.filter_eq_nil_iff.mpr fun entry hentry htakes =>
        Document.declared_ne_nil htakes (.inr hselector) (hmem entry hentry)
    rw [hnone]
    rfl

/-- Where no document declares profiles, a visit in the negative pass finds nothing. -/
theorem found_of_free (hpass : visit.sweep.pass = .negative)
    (hfree : ∀ document ∈ visit.documents, document.declared = []) : visit.found = [] := by
  refine List.eq_nil_iff_forall_not_mem.mpr fun pickup hpickup => ?_
  obtain ⟨hdocument, htakes, -⟩ := mem_found_iff.mp hpickup
  exact Document.declared_ne_nil htakes (.inl hpass) (hfree _ (List.mem_of_getElem? hdocument))

end Visit

namespace Loader

variable {loader : Loader} {env : Environment} {report : Report} {files : List (String × String)}

/-- The documents of a file, none where they cannot be read. -/
def documentsOf (loader : Loader) (store : Store) (env : Environment) (location : String) :
    List Document :=
  match loader.documentsAt store env location with
  | .ok documents => documents
  | .error _ => []

theorem documentsOf_eq {store : Store} {location : String} {documents : List Document}
    (h : loader.documentsAt store env location = .ok documents) :
    loader.documentsOf store env location = documents := by
  rw [documentsOf, h]

/-- The names of the documents of a file, the last one first. -/
def namesOf (loader : Loader) (store : Store) (env : Environment) (location : String) :
    List String :=
  (loader.documentsOf store env location).reverse.map fun document => document.source.name

section Names

variable {store : Store} {location other : String}

/-- Of the documents of a file that can be read, no two have the same name. -/
private theorem nodup_namesOf (hread : loader.documentsAt store env location =
    .ok (loader.documentsOf store env location)) : (loader.namesOf store env location).Nodup := by
  rw [namesOf, List.map_reverse, List.nodup_reverse, List.Nodup, List.pairwise_map,
    List.pairwise_iff_getElem]
  intro i j hi hj hlt hname
  obtain ⟨-, heq, -⟩ := documentsAt_inj hread hread (List.getElem?_eq_getElem hi)
    (List.getElem?_eq_getElem hj) hname
  exact hlt.ne heq

/-- The documents of files with other locations have other names. -/
private theorem disjoint_namesOf
    (hread : loader.documentsAt store env location =
      .ok (loader.documentsOf store env location))
    (hother : loader.documentsAt store env other = .ok (loader.documentsOf store env other))
    (hne : location ≠ other) :
    (loader.namesOf store env location).Disjoint (loader.namesOf store env other) := by
  intro name hname hname'
  obtain ⟨p, hp, rfl⟩ := List.mem_map.mp hname
  obtain ⟨q, hq, heq⟩ := List.mem_map.mp hname'
  obtain ⟨i, hi⟩ := List.mem_iff_getElem?.mp (List.mem_reverse.mp hp)
  obtain ⟨j, hj⟩ := List.mem_iff_getElem?.mp (List.mem_reverse.mp hq)
  exact hne (documentsAt_inj hread hother hi hj heq.symm).1

end Names

/-- The files that a load looks at for the profiles it processes hold no document that declares
profiles. -/
def Unrestricted (loader : Loader) (store : Store) (env : Environment) (report : Report) : Prop :=
  ∀ profile ∈ report.processed, ∀ location ∈ (loader.context store report).plan.ownFiles profile,
    ∀ document ∈ loader.documentsOf store env location, document.declared = []

namespace Course

/-- Where the last sweep finds nothing, and the others find nothing twice, the sources are added
sweep by sweep, those of the last one first. -/
theorem added_eq_sweeps {store : Store} (course : Course loader store env report)
    (hquiet : (loader.finalVisits store env report).flatMap Visit.found = [])
    (honce : ((loader.profileVisits store env report).flatMap Visit.names).Nodup) :
    report.added = (Sweep.ofProfiles (hide env) [] report.processed).reverse.flatMap fun sweep =>
      (sweep.visits (loader.context store report) (loader.lastRun store env).memo).flatMap
        Visit.names := by
  let sweeps := Sweep.ofProfiles (hide env) [] report.processed
  let block (sweep : Sweep) : List Pickup :=
    (sweep.visits (loader.context store report) (loader.lastRun store env).memo).flatMap Visit.found
  have hpickups : (loader.profileVisits store env report).flatMap Visit.found =
      sweeps.flatMap block := List.flatMap_assoc ..
  have hnames (sweep : Sweep) : (block sweep).map Pickup.name =
      (sweep.visits (loader.context store report) (loader.lastRun store env).memo).flatMap
        Visit.names := List.map_flatMap ..
  have hblock : ∀ sweep ∈ sweeps, ∀ pickup ∈ block sweep,
      pickup.profile.name? = sweep.profile.name? := by
    intro sweep _ pickup hpickup
    obtain ⟨visit, hvisit, hfound⟩ := List.mem_flatMap.mp hpickup
    rw [(Visit.mem_found hfound).1, Sweep.sweep_eq_of_mem_visits hvisit]
  have hkeys : (sweeps.map fun sweep => sweep.profile.name?).Nodup := by
    have hnodup := course.nodup_processed
    rwa [profileNames, ← Sweep.map_profile_ofProfiles (hide env) [] report.processed,
      List.map_map] at hnodup
  have happend : ∀ pickup ∈ sweeps.flatMap block, pickup.placement = .append :=
    fun pickup hpickup => placement_of_mem_profileVisits pickup (hpickups ▸ hpickup)
  have hnodup : ((sweeps.flatMap block).map Pickup.name).Nodup := by
    rw [← hpickups, List.map_flatMap]
    exact honce
  rw [course.added_eq, course.layers_eq, hquiet, hpickups, Layers.gather, List.foldl_nil,
    Layers.collected_blocks hblock hkeys happend hnodup]
  exact List.flatMap_congr fun sweep _ => hnames sweep

section Sweeps

variable (course : Course loader (.texts files) env report) (hplain : loader.registry.Plain)

include course hplain

/-- The own files of the profiles that are processed can be read. -/
theorem documentsAt_own {profile : Profile} (hprofile : profile ∈ report.processed)
    {location : String}
    (hlocation : location ∈ (loader.context (.texts files) report).plan.ownFiles profile) :
    loader.documentsAt (.texts files) (hide env) location =
      .ok (loader.documentsOf (.texts files) (hide env) location) := by
  rw [← Sweep.map_profile_ofProfiles (hide env) [] report.processed] at hprofile
  obtain ⟨sweep, hsweep, rfl⟩ := List.mem_map.mp hprofile
  obtain ⟨visit, -, -, -, hat⟩ :=
    course.exists_visit hplain (List.mem_append_left _ hsweep) hlocation
  rw [documentsOf_eq hat, hat]

omit hplain in
/-- What the visits of a load look at is an own file of a profile that is processed. -/
private theorem exists_own {visit : Visit}
    (hvisit : visit ∈ loader.visits (.texts files) env report) :
    ∃ profile ∈ report.processed,
      visit.probe.location ∈ (loader.context (.texts files) report).plan.ownFiles profile := by
  obtain ⟨more, hmore⟩ := course.exists_processed_eq
  have hunscoped : Profile.unscoped ∈ report.processed := by simp [hmore]
  obtain ⟨sweep, hsweep, hvisit⟩ := List.mem_flatMap.mp hvisit
  have hprobe := List.mem_map_of_mem (f := Visit.probe) hvisit
  rw [Sweep.map_probe_visits] at hprobe
  obtain ⟨owner, howner, hlocation⟩ := Plan.exists_own_of_mem_probes hprobe
  refine ⟨owner, ?_, hlocation⟩
  rcases List.mem_append.mp hsweep with hsweep | hsweep
  · obtain ⟨-, done, later, hprocessed, hearlier⟩ := Sweep.exists_split_of_mem_ofProfiles hsweep
    rw [List.nil_append] at hearlier
    rcases howner with rfl | rfl | howner
    · exact hunscoped
    · simp [hprocessed]
    · rw [hprocessed, ← hearlier]
      exact List.mem_append_left _ howner
  · obtain rfl := List.mem_singleton.mp hsweep
    rcases howner with rfl | rfl | howner
    · exact hunscoped
    · exact hunscoped
    · exact howner

variable (hfree : loader.Unrestricted (.texts files) (hide env) report)

include hfree

/-- The visits of a load see no document that declares profiles. -/
private theorem declared_visit {visit : Visit}
    (hvisit : visit ∈ loader.visits (.texts files) env report) :
    ∀ document ∈ visit.documents, document.declared = [] := by
  obtain ⟨profile, hprofile, hlocation⟩ := course.exists_own hvisit
  have hdocuments := documentsOf_eq (course.documentsAt_eq hplain hvisit)
  exact fun document hdocument => hfree profile hprofile _ hlocation document
    (hdocuments.symm ▸ hdocument)

omit hfree in
/-- No name comes twice among the documents of distinct own files. -/
private theorem nodup_names (hdistinct : (report.processed.flatMap
      (loader.context (.texts files) report).plan.ownFiles).Nodup) :
    ((report.processed.flatMap (loader.context (.texts files) report).plan.ownFiles).flatMap
      (loader.namesOf (.texts files) (hide env))).Nodup := by
  have hread : ∀ location ∈
      report.processed.flatMap (loader.context (.texts files) report).plan.ownFiles,
      loader.documentsAt (.texts files) (hide env) location =
        .ok (loader.documentsOf (.texts files) (hide env) location) := by
    intro location hlocation
    obtain ⟨profile, hprofile, hlocation⟩ := List.mem_flatMap.mp hlocation
    exact course.documentsAt_own hplain hprofile hlocation
  refine List.nodup_flatMap.mpr ⟨fun location hlocation => nodup_namesOf (hread _ hlocation), ?_⟩
  exact hdistinct.imp_of_mem fun ha hb hne => disjoint_namesOf (hread _ ha) (hread _ hb) hne

/-- A sweep of the positive pass finds the documents of the own files of its profile. -/
private theorem names_sweep {sweep : Sweep}
    (hsweep : sweep ∈ Sweep.ofProfiles (hide env) [] report.processed) :
    (sweep.visits (loader.context (.texts files) report)
        (loader.lastRun (.texts files) env).memo).flatMap Visit.names =
      ((loader.context (.texts files) report).plan.ownFiles sweep.profile).flatMap
        (loader.namesOf (.texts files) (hide env)) := by
  have hpass := (Sweep.mem_ofProfiles hsweep).1
  rw [← Plan.flatMap_probes _ _ sweep.earlier, ← Sweep.map_probe_visits, List.flatMap_map]
  refine List.flatMap_congr fun visit hvisit => ?_
  have hmem : visit ∈ loader.visits (.texts files) env report :=
    List.mem_flatMap.mpr ⟨sweep, List.mem_append_left _ hsweep, hvisit⟩
  rw [Visit.names_of_free (by rw [Sweep.sweep_eq_of_mem_visits hvisit, hpass])
    (course.declared_visit hplain hfree hmem), namesOf,
    documentsOf_eq (course.documentsAt_eq hplain hmem)]

/-- The last sweep finds nothing. -/
private theorem found_finalVisits :
    (loader.finalVisits (.texts files) env report).flatMap Visit.found = [] := by
  refine List.flatMap_eq_nil_iff.mpr fun visit hvisit => ?_
  have hpasses := twoPasses loader (.texts files) env report
  refine Visit.found_of_free (hpasses.negative visit hvisit).1
    (course.declared_visit hplain hfree ?_)
  rw [hpasses.eq]
  exact List.mem_append_right _ hvisit

end Sweeps

end Course

/-- A load whose files hold no document that declares profiles, and whose own files are distinct,
adds the sources of the profiles one after the other, the last one first. -/
theorem added_eq_reference (hplain : loader.registry.Plain)
    (h : (loader.load (.texts files) env).result = .ok report)
    (hfree : loader.Unrestricted (.texts files) (hide env) report)
    (hdistinct : (report.processed.flatMap
      (loader.context (.texts files) report).plan.ownFiles).Nodup) :
    (∀ profile ∈ report.processed,
      ∀ location ∈ (loader.context (.texts files) report).plan.ownFiles profile,
        loader.documentsAt (.texts files) (hide env) location =
          .ok (loader.documentsOf (.texts files) (hide env) location)) ∧
    report.added = report.processed.reverse.flatMap fun profile =>
      ((loader.context (.texts files) report).plan.ownFiles profile).flatMap
        (loader.namesOf (.texts files) (hide env)) := by
  obtain ⟨course⟩ := exists_course h
  refine ⟨fun profile hprofile location => course.documentsAt_own hplain hprofile, ?_⟩
  let sweeps := Sweep.ofProfiles (hide env) [] report.processed
  have hprofiles : sweeps.map Sweep.profile = report.processed := Sweep.map_profile_ofProfiles ..
  have honce : ((loader.profileVisits (.texts files) env report).flatMap Visit.names).Nodup := by
    have hall : (loader.profileVisits (.texts files) env report).flatMap Visit.names =
        (report.processed.flatMap (loader.context (.texts files) report).plan.ownFiles).flatMap
          (loader.namesOf (.texts files) (hide env)) := by
      rw [profileVisits, List.flatMap_assoc, List.flatMap_assoc,
        List.flatMap_congr fun sweep hsweep => course.names_sweep hplain hfree hsweep]
      conv_rhs => rw [← hprofiles, List.flatMap_map]
    exact hall ▸ course.nodup_names hplain hdistinct
  calc report.added
      = sweeps.reverse.flatMap fun sweep =>
          (sweep.visits (loader.context (.texts files) report)
            (loader.lastRun (.texts files) env).memo).flatMap Visit.names :=
        course.added_eq_sweeps (course.found_finalVisits hplain hfree) honce
    _ = sweeps.reverse.flatMap fun sweep =>
          ((loader.context (.texts files) report).plan.ownFiles sweep.profile).flatMap
            (loader.namesOf (.texts files) (hide env)) :=
        List.flatMap_congr fun sweep hsweep =>
          course.names_sweep hplain hfree (List.mem_reverse.mp hsweep)
    _ = report.processed.reverse.flatMap fun profile =>
          ((loader.context (.texts files) report).plan.ownFiles profile).flatMap
            (loader.namesOf (.texts files) (hide env)) := by
        rw [← hprofiles, ← List.map_reverse, List.flatMap_map]

/-! ### A load from a directory and a file -/

/-- A loader that searches a directory, and before it a file. -/
def mixedLoader : Loader where
  search := { locations := some "file:/a/,file:/extra.yml" }
  registry := .builtIn

/-- Two of the files have two documents each. -/
def mixedFiles : List (String × String) :=
  [("file:/a/application.properties", "x=1\n"),
    ("file:/a/application-dev.yml", "x: 2\n---\nx: 3\n"),
    ("file:/extra.yml", "x: 4\n---\nx: 5\n")]

def mixedReport : Report where
  locations := ["file:/extra.yml", "file:/a/"]
  names := ["application"]
  processed := [.unscoped, .requested "dev"]
  added := ["applicationConfig: [file:/a/application-dev.yml] (document #1)",
    "applicationConfig: [file:/a/application-dev.yml] (document #0)",
    "applicationConfig: [file:/extra.yml] (document #1)",
    "applicationConfig: [file:/extra.yml] (document #0)",
    "applicationConfig: [file:/a/application.properties]"]
  active := ["dev"]

theorem mixed_eq_reference :
    let env : Environment := { activeNames := ["dev"] }
    (mixedLoader.load (.texts mixedFiles) env).result = .ok mixedReport ∧
      mixedReport.added = [Profile.requested "dev", .unscoped].flatMap fun profile =>
        ((mixedLoader.context (.texts mixedFiles) mixedReport).plan.ownFiles profile).flatMap
          (mixedLoader.namesOf (.texts mixedFiles) (hide env)) := by
  intro env
  have hload : (mixedLoader.load (.texts mixedFiles) env).result = .ok mixedReport := by
    decide +kernel
  have hplain : mixedLoader.registry.Plain := Registry.plain_of_builtIn fun _ h => h
  have hfree : mixedLoader.Unrestricted (.texts mixedFiles) (hide env) mixedReport := by
    unfold Unrestricted
    decide +kernel
  have hdistinct : (mixedReport.processed.flatMap
      (mixedLoader.context (.texts mixedFiles) mixedReport).plan.ownFiles).Nodup := by
    decide +kernel
  exact ⟨hload, (added_eq_reference hplain hload hfree hdistinct).2⟩

end Loader

end LayeredConfig
