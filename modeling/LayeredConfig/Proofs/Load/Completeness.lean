import LayeredConfig.Proofs.Load.Judgement
import LayeredConfig.Proofs.Load.OwnFiles

/-!
# No document of an unscoped file is lost

The own files of the unscoped profile are looked at first, for the documents that declare nothing,
and again in the last sweep, for those that declare profiles and are accepted then. In between they
are looked at for every named profile. All these looks together add every document that should be
added, each once, and no document that declares profiles without having been accepted.

## Main results

* `Loader.Course.exists_pickup_of_added`: a document whose name was added was picked up.
* `Loader.added_complete`: what a load adds of the own files of the unscoped profile.
-/

namespace LayeredConfig

namespace Loader

variable {loader : Loader} {env : Environment} {report : Report} {files : List (String × String)}
  {location : String} {documents : List Document} {document : Document}

/-- A document of a file is picked up if its name is that of an added source, which then is its
own. -/
theorem Course.exists_pickup_of_added (course : Course loader (.texts files) env report)
    (hplain : loader.registry.Plain)
    (hat : loader.documentsAt (.texts files) (hide env) location = .ok documents)
    (hdocument : document ∈ documents) (hadded : document.source.name ∈ report.added) :
    document.source ∈ (loader.layers (.texts files) env).collected ∧
      ∃ pickup ∈ (loader.lastRun (.texts files) env).pickups, pickup.document = document := by
  rw [course.added_eq] at hadded
  obtain ⟨source, hsource, hname⟩ := List.mem_map.mp hadded
  obtain ⟨pickup, hpickup, rfl⟩ := Layers.exists_of_mem_collected hsource
  obtain ⟨visit, hvisit, hfound⟩ := course.mem_pickups_iff.mp hpickup
  obtain ⟨index, hindex⟩ := List.getElem?_of_mem hdocument
  obtain ⟨-, -, rfl⟩ := documentsAt_inj (course.documentsAt_eq hplain hvisit) hat
    (Visit.mem_found_iff.mp hfound).1 hindex hname
  exact ⟨hsource, pickup, hpickup, rfl⟩

/-- The name of a document that takes part in a visit is added. -/
theorem Course.added_of_takesPart {store : Store} (course : Course loader store env report)
    {visit : Visit} (hvisit : visit ∈ loader.visits store env report)
    (hdocument : document ∈ visit.documents)
    (htakes : document.takesPart visit.sweep.pass visit.probe.selector visit.sweep.env = true) :
    document.source.name ∈ report.added := by
  obtain ⟨index, hindex⟩ := List.getElem?_of_mem hdocument
  exact course.mem_added_iff.mpr ⟨visit, hvisit, Visit.mem_names_of_takesPart hindex htakes⟩

/-- A document that a visit finds is added under its name, which no other document bears. -/
private theorem Course.added_once (course : Course loader (.texts files) env report)
    (hplain : loader.registry.Plain) {visit : Visit}
    (hvisit : visit ∈ loader.visits (.texts files) env report)
    (hdocument : document ∈ visit.documents)
    (htakes : document.takesPart visit.sweep.pass visit.probe.selector visit.sweep.env = true) :
    report.added.count document.source.name = 1 ∧
      document.source ∈ (loader.layers (.texts files) env).collected := by
  have hadded := course.added_of_takesPart hvisit hdocument htakes
  have hat := course.documentsAt_eq hplain hvisit
  exact ⟨List.count_eq_one_of_mem course.nodup_added hadded,
    (course.exists_pickup_of_added hplain hat hdocument hadded).1⟩

/-- A load reads every own file of the unscoped profile. It adds each of its documents once that
declares nothing, or that is accepted when the queue is empty. What it adds of any file declares
nothing, or was accepted for a profile that it names, or is accepted when the queue is empty. -/
theorem added_complete (hplain : loader.registry.Plain)
    (h : (loader.load (.texts files) env).result = .ok report) :
    (∀ location ∈ (loader.context (.texts files) report).plan.ownFiles .unscoped,
      ∃ documents, loader.documentsAt (.texts files) (hide env) location = .ok documents ∧
        ∀ document ∈ documents,
          document.declared = [] ∨ (loader.drained (.texts files) env).env.accepts
            document.declared = .ok true →
          report.added.count document.source.name = 1 ∧
            document.source ∈ (loader.layers (.texts files) env).collected) ∧
    ∀ location documents,
      loader.documentsAt (.texts files) (hide env) location = .ok documents →
      ∀ document ∈ documents, document.declared ≠ [] → document.source.name ∈ report.added →
        (∃ earlier profile later name, report.processed = earlier ++ profile :: later ∧
          profile.name? = some name ∧ name ∈ document.declared ∧
          ((hide env).announcing (earlier ++ [profile])).accepts document.declared = .ok true) ∨
        (loader.drained (.texts files) env).env.accepts document.declared = .ok true := by
  obtain ⟨course⟩ := exists_course h
  constructor
  · intro location hlocation
    obtain ⟨more, hprocessed⟩ := course.exists_processed_eq
    let first : Sweep :=
      { pass := .positive, profile := .unscoped, earlier := []
        env := Sweep.announced (hide env) .unscoped }
    have hfirst : first ∈ report.sweeps (hide env) := by
      rw [Report.sweeps, hprocessed]
      exact List.mem_append_left _ List.mem_cons_self
    obtain ⟨visit, hvisit, hsweep, hselector, hat⟩ :=
      course.exists_visit hplain hfirst hlocation
    obtain ⟨again, hagain, hsweep', hselector', hat'⟩ :=
      course.exists_visit hplain (report.finalSweep_mem_sweeps _) hlocation
    refine ⟨visit.documents, hat, fun document hdocument htaken => ?_⟩
    by_cases hdeclared : document.declared = []
    · refine course.added_once hplain hvisit hdocument ?_
      rw [hsweep]
      exact (Document.takesPart_positive_iff hselector).mpr hdeclared
    · have haccepts := htaken.resolve_left hdeclared
      have hsame := Except.ok.inj (hat.symm.trans hat')
      refine course.added_once hplain hagain (hsame ▸ hdocument) ?_
      rw [hsweep', env_finalSweep h]
      exact Document.takesPart_of_accepts hselector' hdeclared haccepts
  · intro location documents hat document hdocument hdeclared hadded
    obtain ⟨-, pickup, hpickup, rfl⟩ := course.exists_pickup_of_added hplain hat hdocument hadded
    obtain ⟨judge, hjudged, haccepts⟩ := exists_judged h hpickup hdeclared
    cases hjudged with
    | search hplacement hprocessed hprofile hlisted =>
      exact .inl ⟨_, _, _, _, hprocessed, hprofile, hlisted, haccepts⟩
    | last hplacement hprofile => exact .inr haccepts

/-! ### A file with three documents -/

/-- One document declares nothing, one an active profile, and one its absence. -/
def sectionFiles : List (String × String) :=
  [("file:/application.yml", "a: 1\n---\nprofiles: dev\n---\nprofiles: '!dev'\n")]

def sectionReport : Report where
  locations := ["file:/"]
  names := ["application"]
  processed := [.unscoped, .requested "dev"]
  added := ["applicationConfig: [file:/application.yml] (document #1)",
    "applicationConfig: [file:/application.yml] (document #0)"]
  active := ["dev"]

theorem sections_complete :
    let env : Environment := { activeNames := ["dev"] }
    (plainDirectory.load (.texts sectionFiles) env).result = .ok sectionReport ∧
      ∃ documents, plainDirectory.documentsAt (.texts sectionFiles) (hide env)
          "file:/application.yml" = .ok documents ∧
        documents.map Document.declared = [[], ["dev"], ["!dev"]] ∧
        ∀ document ∈ documents,
          document.declared = [] ∨ (plainDirectory.drained (.texts sectionFiles) env).env.accepts
            document.declared = .ok true →
          sectionReport.added.count document.source.name = 1 := by
  intro env
  have hload : (plainDirectory.load (.texts sectionFiles) env).result = .ok sectionReport := by
    decide +kernel
  have hplain : plainDirectory.registry.Plain := Registry.plain_of_builtIn fun _ h => h
  have hown : "file:/application.yml" ∈
      (plainDirectory.context (.texts sectionFiles) sectionReport).plan.ownFiles .unscoped := by
    decide +kernel
  have hdeclared : (plainDirectory.documentsAt (.texts sectionFiles) (hide env)
      "file:/application.yml").map (List.map Document.declared) =
        .ok [[], ["dev"], ["!dev"]] := by
    decide +kernel
  obtain ⟨documents, hat, hadded⟩ := (added_complete hplain hload).1 _ hown
  rw [hat] at hdeclared
  exact ⟨hload, documents, hat, Except.ok.inj hdeclared, fun document hdocument htaken =>
    (hadded document hdocument htaken).1⟩

end Loader

end LayeredConfig
