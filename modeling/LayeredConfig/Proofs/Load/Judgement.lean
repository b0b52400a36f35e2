import LayeredConfig.Proofs.Load.Settled
import LayeredConfig.Proofs.Load.Siblings
import LayeredConfig.Proofs.Load.Sweeps
import LayeredConfig.Proofs.Profile.Polarity

/-!
# The judgement of a document and the environment after the load

A document that declares profiles takes part if the environment of that time accepts it. Later
more profiles become active: those that are processed after it, and in the end those that the
default properties name. They never replace active profiles, only the profiles to fall back to.
So the environment after the load accepts the document unless it depends on a fallback, or on the
absence of a profile that became active since.

## Main definitions

* `Loader.Judged`: the environment in which a document was judged.

## Main results

* `Loader.exists_judged`: what takes part was accepted by that environment.
* `Loader.accepts_after`: when the environment after the load accepts it, too.
-/

namespace LayeredConfig

namespace Document

variable {document : Document} {pass : Pass} {profile : Profile} {env : Environment}

/-- What declares something takes part only if it is accepted, and in the positive pass only for a
profile that it names. -/
theorem accepts_of_takesPart (h : document.takesPart pass profile env = true)
    (hdeclared : document.declared ≠ []) : env.accepts document.declared = .ok true ∧
      (pass = .positive → ∃ name ∈ document.declared, profile.name? = some name) := by
  cases pass with
  | positive =>
    cases hname : profile.name? with
    | none => exact absurd ((takesPart_positive_iff hname).mp h) hdeclared
    | some name =>
      simp only [takesPart, applies, hname] at h
      split at h
      · next applies heq =>
        split at heq
        · next hcontains =>
          exact ⟨heq.trans (congrArg _ h), fun _ => ⟨name, by simpa using hcontains, rfl⟩⟩
        · cases heq
          cases h
      · cases h
  | negative =>
    refine ⟨?_, fun hpass => by cases hpass⟩
    cases hname : profile.name? with
    | none =>
      simp only [takesPart, applies, hname] at h
      split at h
      · next applies heq =>
        split at heq
        · exact heq.trans (congrArg _ h)
        · cases heq
          cases h
      · cases h
    | some name => simp [takesPart, applies, hname] at h

/-- A profile takes what declares its name and is accepted. -/
theorem takesPart_of_listed {name : String} (hname : profile.name? = some name)
    (hlisted : name ∈ document.declared) (haccepts : env.accepts document.declared = .ok true) :
    document.takesPart .positive profile env = true := by
  simp [takesPart, applies, hname, hlisted, haccepts]

/-- The last sweep takes what declares something and is accepted. -/
theorem takesPart_of_accepts (hprofile : profile.name? = none) (hdeclared : document.declared ≠ [])
    (h : env.accepts document.declared = .ok true) :
    document.takesPart .negative profile env = true := by
  simp [takesPart, applies, hprofile, isSpecific, hdeclared, h]

end Document

namespace Loader

variable {loader : Loader} {store : Store} {env : Environment} {report : Report}
  {pickup : Pickup}

/-- The environment in which a document that declares profiles was judged: for a profile of the
queue, the one in which this profile and all before it are active; in the last sweep, the one with
which the queue is empty. -/
inductive Judged (origin settled : Environment) (processed : List Profile) (pickup : Pickup) :
    Environment → Prop
  | search {earlier later : List Profile} {name : String} (hplacement : pickup.placement = .append)
      (hprocessed : processed = earlier ++ pickup.profile :: later)
      (hname : pickup.profile.name? = some name) (hdeclared : name ∈ pickup.document.declared) :
      Judged origin settled processed pickup (origin.announcing (earlier ++ [pickup.profile]))
  | last (hplacement : pickup.placement = .prependIfAbsent)
      (hprofile : pickup.profile = .unscoped) :
      Judged origin settled processed pickup settled

/-- The last sweep sees the environment with which the queue is empty. -/
theorem env_finalSweep (h : (loader.load store env).result = .ok report) :
    (report.finalSweep (hide env)).env = (loader.drained store env).env := by
  obtain ⟨course⟩ := exists_course h
  have henv := (course.made _ (report.finalSweep_mem_sweeps (hide env))).env_eq
  rw [henv, (env_drained h).2]
  exact Environment.announcing_append_of_nil rfl

/-- A document that declares profiles and takes part was accepted when it was judged. -/
theorem exists_judged (h : (loader.load store env).result = .ok report)
    (hpickup : pickup ∈ (loader.lastRun store env).pickups)
    (hdeclared : pickup.document.declared ≠ []) :
    ∃ judge, Judged (hide env) (loader.drained store env).env report.processed pickup judge ∧
      judge.accepts pickup.document.declared = .ok true := by
  obtain ⟨course⟩ := exists_course h
  obtain ⟨visit, hvisit, hfound⟩ := course.mem_pickups_iff.mp hpickup
  obtain ⟨sweep, hsweep, hvisit⟩ := List.mem_flatMap.mp hvisit
  have henv := (course.made sweep hsweep).env_eq
  have hselector := Sweep.selector_of_mem_visits hvisit
  obtain ⟨-, htakes, hprofile, hplacement, -⟩ := Visit.mem_found_iff.mp hfound
  rw [Sweep.sweep_eq_of_mem_visits hvisit] at htakes hprofile hplacement
  obtain ⟨haccepts, hnamed⟩ := Document.accepts_of_takesPart htakes hdeclared
  rcases List.mem_append.mp hsweep with hsweep | hsweep
  · obtain ⟨hpass, done, later, hprocessed, hearlier⟩ :=
      Sweep.exists_split_of_mem_ofProfiles hsweep
    obtain ⟨name, hname, hselected⟩ := hnamed hpass
    have hself : visit.probe.selector = pickup.profile := by
      rw [hprofile]
      refine hselector.resolve_right fun hunscoped => ?_
      rw [hunscoped] at hselected
      cases hselected
    rw [hpass] at hplacement
    rw [henv, hearlier, List.nil_append, ← hprofile] at haccepts
    rw [← hprofile] at hprocessed
    exact ⟨_, .search hplacement hprocessed (hself ▸ hselected) hname, haccepts⟩
  · obtain rfl := List.mem_singleton.mp hsweep
    exact ⟨_, .last hplacement hprofile, env_finalSweep h ▸ haccepts⟩

/-- The profiles that are active in a judgement are active after the load. -/
private theorem Judged.active {judge : Environment}
    (h : (loader.load store env).result = .ok report)
    (hjudged : Judged (hide env) (loader.drained store env).env report.processed pickup judge) :
    ∃ active, judge.active = .ok active ∧ (∀ name ∈ active, name ∈ report.active) ∧
      ∀ name, pickup.profile = .requested name →
        name ∈ active ∧ name ∈ pickup.document.declared := by
  obtain ⟨before, settled, hbefore, hsettled, -, hmem⟩ := exists_settled h
  obtain ⟨-, -, hasked⟩ := activeNames_load h
  cases hjudged with
  | @search earlier later name hplacement hprocessed hname hdeclared =>
    refine ⟨_, Environment.active_announcing hbefore _, fun name hname => ?_, fun name hself => ?_⟩
    · rcases (Environment.mem_active_newNames hbefore).mp hname with hname | hrequested
      · exact hasked name (requested_of_active h hbefore name hname)
      · refine hasked name (hprocessed ▸ ?_)
        rw [← List.singleton_append, ← List.append_assoc]
        exact List.mem_append_left _ hrequested
    · obtain rfl : _ = name := Option.some.inj (hname.symm.trans (congrArg Profile.name? hself))
      exact ⟨(Environment.mem_active_newNames hbefore).mpr (.inr (by simp [hself])), hdeclared⟩
  | last hplacement hprofile =>
    refine ⟨settled, hsettled, fun name hname => hasked name ((hmem name).mp hname), ?_⟩
    rintro name hself
    cases hprofile.symm.trans hself

/-- A document that declares profiles and takes part was accepted when it was judged, and the
profiles that were active then are active after the load. So the environment after the load
accepts it, too, if the names that it mentions plainly and that counted then still count, where
this is in question only when nothing was active then; and if no name that it mentions under a
negation counts that did not count then. What was picked up for a profile that was asked for is
accepted anyway, if it can be read and the profile has a plain name. -/
theorem accepts_after (h : (loader.load store env).result = .ok report)
    (hpickup : pickup ∈ (loader.lastRun store env).pickups)
    (hdeclared : pickup.document.declared ≠ []) :
    let after := (loader.load store env).env
    let declared := pickup.document.declared
    ∃ judge active counted,
      Judged (hide env) (loader.drained store env).env report.processed pickup judge ∧
      judge.active = .ok active ∧ (∀ name ∈ active, name ∈ report.active) ∧
      judge.effective = .ok counted ∧ judge.accepts declared = .ok true ∧
      (∀ now, after.effective = .ok now →
        (active = [] → ∀ name ∈ counted, Environment.someMentions true name declared →
          name ∈ now) →
        (∀ name ∈ now, Environment.someMentions false name declared → name ∈ counted) →
        after.accepts declared = .ok true) ∧
      ∀ name, pickup.profile = .requested name → Expression.parse name = .ok (.name name) →
        (∀ text ∈ declared, ∃ expression, Expression.parse text = .ok expression) →
        after.accepts declared = .ok true := by
  intro after declared
  obtain ⟨judge, hjudged, haccepts⟩ := exists_judged h hpickup hdeclared
  obtain ⟨active, hactive, hkept, hself⟩ := hjudged.active h
  have hcounted := haccepts
  rw [Environment.accepts, Failure.bind_eq_ok_iff] at hcounted
  obtain ⟨counted, hcounted, hholds⟩ := hcounted
  have hafter (hsome : report.active ≠ []) : after.effective = .ok report.active := by
    have hstored := (activeNames_load h).1
    have hactive : after.active = .ok after.activeNames :=
      Environment.active_of_stored (hstored.symm ▸ hsome)
    exact Environment.effective_of_active (hactive.trans (congrArg _ hstored)) hsome
  refine ⟨judge, active, counted, hjudged, hactive, hkept, hcounted, haccepts,
    fun now hnow hplain hnegated => ?_, fun name hprofile hread htexts => ?_⟩
  · rw [Environment.accepts_of_effective hnow]
    refine Environment.someHolds_mono (fun name hmentions hname => ?_)
      (fun name hmentions hname => ?_) hholds
    · rw [List.contains_iff_mem] at hname ⊢
      by_cases hnone : active = []
      · exact hplain hnone name hname hmentions
      · -- What counted was active, so it is active now, and therefore it counts.
        rw [Environment.effective_of_active hactive hnone] at hcounted
        obtain rfl := Except.ok.inj hcounted
        have hfinal := hkept name hname
        rw [hafter (List.ne_nil_of_mem hfinal)] at hnow
        exact Except.ok.inj hnow ▸ hfinal
    · rw [List.contains_iff_mem] at hname ⊢
      exact hnegated name hname hmentions
  · obtain ⟨hname, hlisted⟩ := hself name hprofile
    have hfinal := hkept name hname
    rw [Environment.accepts_of_effective (hafter (List.ne_nil_of_mem hfinal))]
    exact Environment.someHolds_of_name hlisted hread htexts (List.contains_iff_mem.mpr hfinal)

/-! ### A document that stays accepted -/

/-- The file is meant for a profile that is active, or for the absence of one that never is. -/
def declaringStore : Store :=
  .ofTexts [("file:/application.properties", "profiles=!late & dev,dev\n")]

def declaringReport : Report where
  locations := ["file:/"]
  names := ["application"]
  processed := [.unscoped, .requested "dev"]
  added := ["applicationConfig: [file:/application.properties]"]
  active := ["dev"]

theorem declaring_accepted_after :
    let env : Environment := { activeNames := ["dev"] }
    (plainDirectory.load declaringStore env).result = .ok declaringReport ∧
      (∃ pickup ∈ (plainDirectory.lastRun declaringStore env).pickups,
        pickup.profile = .requested "dev" ∧ pickup.document.declared = ["!late & dev", "dev"]) ∧
      (plainDirectory.load declaringStore env).env.accepts ["!late & dev", "dev"] = .ok true := by
  intro env
  have hload : (plainDirectory.load declaringStore env).result = .ok declaringReport := by
    decide +kernel
  have hfound : ∃ pickup ∈ (plainDirectory.lastRun declaringStore env).pickups.toList,
      pickup.profile = .requested "dev" ∧ pickup.document.declared = ["!late & dev", "dev"] := by
    decide +kernel
  obtain ⟨pickup, hpickup, hprofile, hdeclared⟩ := hfound
  rw [Array.mem_toList_iff] at hpickup
  obtain ⟨-, -, -, -, -, -, -, -, -, hasked⟩ :=
    accepts_after hload hpickup (by rw [hdeclared]; decide)
  rw [hdeclared] at hasked
  refine ⟨hload, ⟨pickup, hpickup, hprofile, hdeclared⟩, ?_⟩
  refine hasked "dev" hprofile (by with_unfolding_all rfl) fun text htext => ?_
  rcases List.mem_pair.mp htext with rfl | rfl
  · exact ⟨.all [.not (.name "late"), .name "dev"], by with_unfolding_all rfl⟩
  · exact ⟨.name "dev", by with_unfolding_all rfl⟩

/-! ### Documents that are not accepted in the end -/

/-- The file is meant for the profile to fall back to, and includes another one. -/
def fallbackStore : Store :=
  .ofTexts [("file:/application.properties", "profiles=default\nprofiles.include=dev\n")]

/-- The file is meant for the absence of a profile that the default properties include. -/
def absenceStore : Store :=
  .ofTexts [("file:/application.properties", "profiles=!dev\n")]

def includingEnvironment : Environment where
  chain := ⟨[.ofPairs defaultPropertiesName [("profiles.include", "dev")]]⟩

theorem taken_and_refused_after :
    ((plainDirectory.load fallbackStore {}).result = .ok
        { locations := ["file:/"], names := ["application"]
          processed := [.unscoped, .fallback "default", .requested "dev"]
          added := ["applicationConfig: [file:/application.properties]"], active := ["dev"] } ∧
      (plainDirectory.lastRun fallbackStore {}).pickups.toList.map
        (fun pickup => pickup.document.declared) = [["default"]] ∧
      (plainDirectory.load fallbackStore {}).env.accepts ["default"] = .ok false) ∧
    (plainDirectory.load absenceStore includingEnvironment).result = .ok
        { locations := ["file:/"], names := ["application"]
          processed := [.unscoped, .fallback "default"]
          added := ["applicationConfig: [file:/application.properties]"], active := ["dev"] } ∧
      (plainDirectory.lastRun absenceStore includingEnvironment).pickups.toList.map
        (fun pickup => pickup.document.declared) = [["!dev"]] ∧
      (plainDirectory.load absenceStore includingEnvironment).env.accepts ["!dev"] = .ok false := by
  decide +kernel

end Loader

end LayeredConfig
