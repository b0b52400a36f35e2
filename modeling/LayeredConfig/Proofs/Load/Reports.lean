import LayeredConfig.Proofs.Load.Completeness

/-!
# What a load reports of its probes

A load reports what each of its visits found: nothing at the location, a file without an extension,
a file without documents, or documents that take part. A location is reported as loaded iff an
added source comes from it. For a source is added as soon as one visit finds its document, whatever
other visits of the same file report; and a file of which documents take part somewhere is nowhere
reported as missing or empty.

## Main definitions

* `Loader.Reports`: a load reports a finding at a location.
* `Loader.AddsFrom`: an added source comes from a location.

## Main results

* `Loader.Course.reports_iff`: a load reports what its visits report.
* `Loader.reports_match_added`: the locations that are reported as loaded are those from which the
  added sources come, and no other finding is reported there.
-/

namespace LayeredConfig

namespace Loader

variable {loader : Loader} {store : Store} {env : Environment} {report : Report}
  {files : List (String × String)} {finding : Finding} {location name : String} {visit : Visit}

/-- The load reports the finding at the location, for some profile. -/
def Reports (loader : Loader) (store : Store) (env : Environment) (finding : Finding)
    (location : String) : Prop :=
  ∃ profile, .probed finding location profile ∈ (loader.load store env).events

/-- The added source of the name is that of a document of the file at the location. -/
def AddsFrom (loader : Loader) (store : Store) (env : Environment) (location name : String) :
    Prop :=
  ∃ documents, loader.documentsAt store (hide env) location = .ok documents ∧
    ∃ document ∈ documents, document.source.name = name ∧
      document.source ∈ (loader.layers store env).collected

/-- A load reports what its visits report. -/
theorem Course.reports_iff (course : Course loader store env report) :
    loader.Reports store env finding location ↔
      ∃ visit ∈ loader.visits store env report, ∃ profile,
        visit.report? store = some (.probed finding location profile) := by
  have hmem (profile : Option String) :
      .probed finding location profile ∈ (loader.load store env).events ↔
        ∃ visit ∈ loader.visits store env report,
          visit.report? store = some (.probed finding location profile) := by
    rw [events_load, ← Array.mem_toList_iff]
    have hreports : .probed finding location profile ∈ (loader.lastRun store env).reports ↔
        .probed finding location profile ∈ (loader.lastRun store env).events.toList := by
      simp [Run.reports, Event.location?]
    simp [← hreports, course.reports_eq]
  simp only [Reports, hmem]
  constructor
  · rintro ⟨profile, visit, hvisit, h⟩
    exact ⟨visit, hvisit, profile, h⟩
  · rintro ⟨visit, hvisit, profile, h⟩
    exact ⟨profile, visit, hvisit, h⟩

/-! ### What a report says about a visit -/

private theorem documents_ne_nil (h : visit.found ≠ []) : visit.documents ≠ [] := by
  rintro hnone
  rw [Visit.found, hnone] at h
  exact h rfl

/-- A visit of a load reports its location as loaded iff it finds something there. -/
theorem loaded_iff (hvisit : visit ∈ loader.visits store env report) :
    (∃ profile, visit.report? store = some (.probed .loaded location profile)) ↔
      visit.probe.location = location ∧ visit.found ≠ [] := by
  have hdocuments := documents_of_mem_visits hvisit
  unfold Probe.documents at hdocuments
  unfold Visit.report? Sweep.report?
  dsimp only at hdocuments ⊢
  constructor
  · rintro ⟨profile, h⟩
    split at h
    · cases h
    · split at h
      · cases h
      · split at h
        · cases h
        · split at h
          · cases h
          · next hfound =>
            cases h
            exact ⟨rfl, fun hnone => hfound (List.isEmpty_iff.mpr hnone)⟩
  · rintro ⟨rfl, hfound⟩
    have hsome := documents_ne_nil hfound
    -- Documents are there only where something is there and has an extension.
    split at hdocuments
    · next hthere =>
      obtain ⟨hthere, hextension⟩ := Bool.and_eq_true_iff.mp hthere
      have hpicked : (visit.sweep.picked visit.probe visit.documents).isEmpty = false :=
        List.isEmpty_eq_false_iff.mpr hfound
      refine ⟨visit.sweep.profile.name?, ?_⟩
      rw [hthere, ← Option.not_isSome, hextension, List.isEmpty_eq_false_iff.mpr hsome, hpicked]
      rfl
    · exact absurd hdocuments hsome

/-- A visit of a load that reports anything else was at a location without documents. -/
theorem documents_of_report (hvisit : visit ∈ loader.visits store env report)
    {profile : Option String} (h : visit.report? store = some (.probed finding location profile))
    (hfinding : finding ≠ .loaded) : visit.probe.location = location ∧ visit.documents = [] := by
  have hdocuments := documents_of_mem_visits hvisit
  unfold Probe.documents at hdocuments
  unfold Visit.report? Sweep.report? at h
  dsimp only at hdocuments h
  split at h
  · next hmissing =>
    cases h
    rw [Bool.not_eq_true'] at hmissing
    rw [hmissing] at hdocuments
    exact ⟨rfl, hdocuments⟩
  · split at h
    · next hextension =>
      cases h
      rw [← Option.not_isSome, Bool.not_eq_true'] at hextension
      rw [hextension, Bool.and_false] at hdocuments
      exact ⟨rfl, hdocuments⟩
    · split at h
      · next hempty =>
        cases h
        exact ⟨rfl, List.isEmpty_iff.mp hempty⟩
      · split at h
        · cases h
        · cases h
          exact absurd rfl hfinding

/-! ### Reports and added sources -/

/-- An added source comes from a location iff some visit found its document there. -/
theorem Course.addsFrom_iff (course : Course loader (.texts files) env report)
    (hplain : loader.registry.Plain) :
    loader.AddsFrom (.texts files) env location name ↔
      ∃ visit ∈ loader.visits (.texts files) env report, visit.probe.location = location ∧
        name ∈ visit.names := by
  constructor
  · rintro ⟨documents, hat, document, hdocument, rfl, hcollected⟩
    obtain ⟨pickup, hpickup, hsource⟩ := Layers.exists_of_mem_collected hcollected
    obtain ⟨visit, hvisit, hfound⟩ := course.mem_pickups_iff.mp hpickup
    obtain ⟨index, hindex⟩ := List.getElem?_of_mem hdocument
    have hname := congrArg Source.name hsource
    obtain ⟨hsame, -, -⟩ := documentsAt_inj (course.documentsAt_eq hplain hvisit) hat
      (Visit.mem_found_iff.mp hfound).1 hindex hname
    exact ⟨visit, hvisit, hsame, List.mem_map.mpr ⟨pickup, hfound, hname⟩⟩
  · rintro ⟨visit, hvisit, rfl, hname⟩
    obtain ⟨pickup, hpickup, rfl⟩ := List.mem_map.mp hname
    have hat := course.documentsAt_eq hplain hvisit
    have hdocument := List.mem_of_getElem? (Visit.mem_found_iff.mp hpickup).1
    refine ⟨visit.documents, hat, pickup.document, hdocument, rfl, ?_⟩
    exact (course.exists_pickup_of_added hplain hat hdocument
      (course.mem_added_iff.mpr ⟨visit, hvisit, hname⟩)).1

/-- The locations that a load of texts reports as loaded are those from which its added sources
come, each source from one location. Where a location is reported as missing, without an extension
or empty, nothing was added from it, and it is never reported as loaded. -/
theorem reports_match_added (hplain : loader.registry.Plain)
    (h : (loader.load (.texts files) env).result = .ok report) :
    (∀ location, loader.Reports (.texts files) env .loaded location ↔
      ∃ name ∈ report.added, loader.AddsFrom (.texts files) env location name) ∧
    (∀ name ∈ report.added, ∃! location, loader.AddsFrom (.texts files) env location name) ∧
    ∀ finding location, finding ≠ .loaded → loader.Reports (.texts files) env finding location →
      ¬ loader.Reports (.texts files) env .loaded location ∧
        ∀ name ∈ report.added, ¬ loader.AddsFrom (.texts files) env location name := by
  obtain ⟨course⟩ := exists_course h
  have hloaded (location : String) : loader.Reports (.texts files) env .loaded location ↔
      ∃ name ∈ report.added, loader.AddsFrom (.texts files) env location name := by
    simp only [course.reports_iff, course.addsFrom_iff hplain, course.mem_added_iff]
    constructor
    · rintro ⟨visit, hvisit, hreport⟩
      obtain ⟨hlocation, hfound⟩ := (loaded_iff hvisit).mp hreport
      obtain ⟨pickup, hpickup⟩ := List.exists_mem_of_ne_nil _ hfound
      have hname : pickup.name ∈ visit.names := List.mem_map_of_mem hpickup
      exact ⟨pickup.name, ⟨visit, hvisit, hname⟩, visit, hvisit, hlocation, hname⟩
    · rintro ⟨name, -, visit, hvisit, hlocation, hname⟩
      obtain ⟨pickup, hpickup, -⟩ := List.mem_map.mp hname
      exact ⟨visit, hvisit, (loaded_iff hvisit).mpr ⟨hlocation, List.ne_nil_of_mem hpickup⟩⟩
  have hskipped (finding : Finding) (location : String) (hfinding : finding ≠ .loaded)
      (hreports : loader.Reports (.texts files) env finding location) (name : String) :
      ¬ loader.AddsFrom (.texts files) env location name := by
    obtain ⟨visit, hvisit, profile, hreport⟩ := course.reports_iff.mp hreports
    obtain ⟨rfl, hnone⟩ := documents_of_report hvisit hreport hfinding
    rintro ⟨documents, hat, document, hdocument, -⟩
    rw [course.documentsAt_eq hplain hvisit, hnone] at hat
    cases hat
    cases hdocument
  refine ⟨hloaded, fun name hname => ?_, fun finding location hfinding hreports => ⟨?_, ?_⟩⟩
  · obtain ⟨visit, hvisit, hfound⟩ := course.mem_added_iff.mp hname
    have hfrom := (course.addsFrom_iff hplain).mpr ⟨visit, hvisit, rfl, hfound⟩
    refine ⟨visit.probe.location, hfrom, fun other hother => ?_⟩
    obtain ⟨documents, hat, document, hdocument, hsame, -⟩ := hfrom
    obtain ⟨others, hat', twin, htwin, rfl, -⟩ := hother
    obtain ⟨i, hi⟩ := List.getElem?_of_mem hdocument
    obtain ⟨j, hj⟩ := List.getElem?_of_mem htwin
    exact (documentsAt_inj hat' hat hj hi hsame.symm).1
  · intro hother
    obtain ⟨name, -, hfrom⟩ := (hloaded location).mp hother
    exact hskipped finding location hfinding hreports name hfrom
  · exact fun name _ => hskipped finding location hfinding hreports name

/-! ### A file that is reported twice, and one that is empty -/

/-- One file has a document for everybody and one for a profile, another one has none. -/
def commentedFiles : List (String × String) :=
  [("file:/application.yml", "a: 1\n---\nprofiles: dev\n"),
    ("file:/application.yaml", "# nothing\n")]

def commentedReport : Report where
  locations := ["file:/"]
  names := ["application"]
  processed := [.unscoped, .requested "dev"]
  added := ["applicationConfig: [file:/application.yml] (document #1)",
    "applicationConfig: [file:/application.yml] (document #0)"]
  active := ["dev"]

theorem commented_reports_match :
    let env : Environment := { activeNames := ["dev"] }
    let store : Store := .texts commentedFiles
    (plainDirectory.load store env).result = .ok commentedReport ∧
      (∃ name ∈ commentedReport.added,
        plainDirectory.AddsFrom store env "file:/application.yml" name) ∧
      plainDirectory.Reports store env .empty "file:/application.yaml" ∧
      ∀ name ∈ commentedReport.added,
        ¬ plainDirectory.AddsFrom store env "file:/application.yaml" name := by
  intro env store
  have hload : (plainDirectory.load store env).result = .ok commentedReport := by
    decide +kernel
  have hplain : plainDirectory.registry.Plain := Registry.plain_of_builtIn fun _ h => h
  have hloaded : plainDirectory.Reports store env .loaded "file:/application.yml" :=
    ⟨some "dev", by decide +kernel⟩
  have hempty : plainDirectory.Reports store env .empty "file:/application.yaml" :=
    ⟨none, by decide +kernel⟩
  obtain ⟨hsame, -, hskipped⟩ := reports_match_added hplain hload
  exact ⟨hload, (hsame _).mp hloaded, hempty, (hskipped .empty _ (by simp) hempty).2⟩

end Loader

end LayeredConfig
