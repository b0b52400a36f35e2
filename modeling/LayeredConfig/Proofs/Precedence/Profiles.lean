import LayeredConfig.Proofs.Load.Collected
import LayeredConfig.Properties

/-!
# The precedence of profiles

A profile that is processed later outranks the named ones that were processed before it: what
was collected for it comes before all that was collected for one of them only. Whether every
profile outranks the unscoped one depends on what the two passes find, because the groups of
the layers stand in the order in which they began: when the unscoped profile has no source
before the final sweep, its group begins last and comes first.

## Main definitions

* `Outranks`: the order that two profiles give to the added sources.

## Main results

* `Loader.outranks_iff`: when every profile outranks those that were processed before it.
-/

namespace LayeredConfig

/-- All that was collected for one profile comes before all that was collected for another one
only. -/
def Outranks (visits : List Visit) (added : List String) (higher lower : Profile) : Prop :=
  ∀ a b, Collected visits higher a → CollectedOnly visits lower b → Before added a b

namespace Loader

variable {loader : Loader} {store : Store} {env : Environment} {report : Report}
  {first later : Profile}

/-- The names of the profiles that visits for profiles find something for, in order. -/
private def foundKeys (loader : Loader) (store : Store) (env : Environment) (report : Report) :
    List (Option String) :=
  ((loader.profileVisits store env report).flatMap Visit.found).map
    fun pickup => pickup.profile.name?

private theorem mem_foundKeys
    (h : namesFor (loader.visits store env report) .positive first ≠ []) :
    first.name? ∈ loader.foundKeys store env report := by
  rw [(twoPasses ..).namesFor_positive] at h
  obtain ⟨name, hname⟩ := List.exists_mem_of_ne_nil _ h
  obtain ⟨pickup, hpickup, -⟩ := List.mem_map.mp hname
  obtain ⟨hmem, hkey⟩ := List.mem_filter.mp hpickup
  exact List.mem_map.mpr ⟨pickup, hmem, by simpa using hkey⟩

/-- Profiles are found something for in the order in which they are processed. -/
private theorem before_of_foundKeys {key other : Option String}
    (h : Before (loader.foundKeys store env report) key other) :
    key = other ∨ Before (profileNames report.processed) key other := by
  rw [foundKeys, profileVisits, List.flatMap_assoc, List.map_flatMap] at h
  have hmap : (Sweep.ofProfiles (hide env) [] report.processed).map
      (fun sweep => sweep.profile.name?) = profileNames report.processed := by
    have hprofiles := Sweep.map_profile_ofProfiles (hide env) [] report.processed
    rw [profileNames, ← congrArg (List.map Profile.name?) hprofiles, List.map_map]
    rfl
  rw [← hmap]
  refine Before.of_flatMap (fun sweep _ found hfound => ?_) h
  obtain ⟨pickup, hpickup, rfl⟩ := List.mem_map.mp hfound
  obtain ⟨visit, hvisit, hpickup⟩ := List.mem_flatMap.mp hpickup
  rw [(Visit.mem_found hpickup).1, Sweep.sweep_eq_of_mem_visits hvisit]

/-- What a visit for a profile finds is found for a profile that is processed. -/
private theorem exists_processed_of_mem {visit : Visit} {name : String}
    (hvisit : visit ∈ loader.profileVisits store env report) (hname : name ∈ visit.names) :
    ∃ profile ∈ report.processed,
      name ∈ namesFor (loader.visits store env report) .positive profile := by
  have hpass := (twoPasses ..).positive visit hvisit
  obtain ⟨sweep, hsweep, hmem⟩ := List.mem_flatMap.mp hvisit
  have hprofile := (Sweep.mem_ofProfiles hsweep).2
  rw [← Sweep.sweep_eq_of_mem_visits hmem] at hprofile
  refine ⟨visit.sweep.profile, hprofile, mem_namesFor.mpr ⟨visit, ?_, hpass, ?_, hname⟩⟩
  · rw [(twoPasses ..).eq]
    exact List.mem_append_left _ hvisit
  · exact Profile.same_iff.mpr rfl

namespace Course

private theorem before_keys (course : Course loader store env report)
    (h : Before report.processed first later)
    (hfirst : namesFor (loader.visits store env report) .positive first ≠ [])
    (hlater : namesFor (loader.visits store env report) .positive later ≠ []) :
    Before (loader.layers store env).keys first.name? later.name? := by
  have hnames : Before (profileNames report.processed) first.name? later.name? := h.map _
  have hne := hnames.ne course.nodup_processed
  rw [course.layers_eq]
  refine Layers.before_keys_of_append placement_of_mem_finalVisits ?_
  rw [Layers.before_keys_append_iff placement_of_mem_profileVisits (mem_foundKeys hlater) hne]
  refine (leads_or_leads (mem_foundKeys hfirst)).resolve_right fun hleads => ?_
  have hbefore := hleads.before (mem_foundKeys hfirst) (Ne.symm hne)
  rcases before_of_foundKeys hbefore with heq | hbefore
  · exact hne heq.symm
  · exact hnames.asymm course.nodup_processed hbefore

/-- Only the first of the processed profiles is unscoped. -/
private theorem name?_ne_none (course : Course loader store env report)
    (h : Before report.processed first later) : later.name? ≠ none := by
  intro hlater
  obtain ⟨more, hmore⟩ := course.exists_processed_eq
  have hnodup := course.nodup_processed
  have hnames : Before (profileNames report.processed) first.name? later.name? := h.map _
  rw [hmore, profileNames, List.map_cons] at hnodup hnames
  have hnone : none ∉ more.map Profile.name? := (List.nodup_cons.mp hnodup).1
  rw [hlater, before_cons_iff] at hnames
  rcases hnames with ⟨-, hmem⟩ | hnames
  · exact hnone hmem
  · exact hnone hnames.mem_right

/-- What is collected for a profile with a name was found by a visit for it. -/
private theorem mem_namesFor_of_collected {profile : Profile} {name : String}
    (hprofile : profile.name? ≠ none)
    (h : Collected (loader.visits store env report) profile name) :
    name ∈ namesFor (loader.visits store env report) .positive profile :=
  ((twoPasses ..).collected_iff.mp h).resolve_right fun h => hprofile h.1

/-- A profile outranks one that was processed before it and that some visit for it found
something for. -/
private theorem outranks (course : Course loader store env report)
    (h : Before report.processed first later)
    (hfirst : namesFor (loader.visits store env report) .positive first ≠ []) :
    Outranks (loader.visits store env report) report.added later first := by
  intro a b ha hb
  have hlater : namesFor (loader.visits store env report) .positive later ≠ [] :=
    List.ne_nil_of_mem (mem_namesFor_of_collected (course.name?_ne_none h) ha)
  rw [course.added_eq]
  refine Layers.before_collected_of_keys course.nodup_keys (course.mem_names_iff.mpr ha)
    (course.mem_names_iff.mpr hb.collected) fun other hother => ?_
  rw [course.eq_of_mem_names hb hother]
  exact course.before_keys h hfirst hlater

/-- What only the final sweep finds is collected for the unscoped profile and for no other. -/
private theorem collectedOnly_unscoped {name : String}
    (hname : name ∈ namesFor (loader.visits store env report) .negative .unscoped)
    (hnew : ∀ visit ∈ loader.profileVisits store env report, name ∉ visit.names) :
    CollectedOnly (loader.visits store env report) .unscoped name where
  collected := (twoPasses ..).collected_iff.mpr (.inr ⟨rfl, hname, hnew⟩)
  only other hother := by
    rcases (twoPasses ..).collected_iff.mp hother with hfound | ⟨hkey, -, -⟩
    · obtain ⟨visit, hvisit, hmem⟩ := (twoPasses ..).exists_mem_early hfound
      exact absurd hmem (hnew visit hvisit)
    · exact Profile.same_iff.mpr hkey

/-- If no visit for the unscoped profile found anything, what only the final sweep finds comes
before all that was collected for the others. -/
private theorem before_of_unscoped_nil (course : Course loader store env report)
    (hnone : namesFor (loader.visits store env report) .positive .unscoped = [])
    {profile : Profile} {a b : String}
    (ha : a ∈ namesFor (loader.visits store env report) .negative .unscoped)
    (hnew : ∀ visit ∈ loader.profileVisits store env report, a ∉ visit.names)
    (hb : b ∈ namesFor (loader.visits store env report) .positive profile) :
    Before report.added a b := by
  have hpasses := twoPasses loader store env report
  have hfound : Collected (loader.visits store env report) profile b :=
    hpasses.collected_iff.mpr (.inl hb)
  have htop := (collectedOnly_unscoped ha hnew).collected
  rw [course.added_eq]
  refine Layers.before_collected_of_keys course.nodup_keys (course.mem_names_iff.mpr htop)
    (course.mem_names_iff.mpr hfound) fun other hother => ?_
  obtain ⟨other, rfl⟩ := Profile.exists_name?_eq other
  have hkey : other.name? ∈ loader.foundKeys store env report := by
    rcases hpasses.collected_iff.mp (course.mem_names_iff.mp hother) with hfound | ⟨-, -, hno⟩
    · exact mem_foundKeys (List.ne_nil_of_mem hfound)
    · obtain ⟨visit, hvisit, hmem⟩ := hpasses.exists_mem_early hb
      exact absurd hmem (hno visit hvisit)
  rw [hpasses.namesFor_positive] at hnone
  rw [hpasses.namesFor_negative] at ha
  rw [course.layers_eq]
  refine Layers.before_keys_unscoped placement_of_mem_profileVisits placement_of_mem_finalVisits
    hnone ha ?_ hkey
  intro hmem
  obtain ⟨pickup, hpickup, rfl⟩ := List.mem_map.mp hmem
  obtain ⟨visit, hvisit, hpickup⟩ := List.mem_flatMap.mp hpickup
  exact hnew visit hvisit (List.mem_map_of_mem hpickup)

/-- If no visit for the unscoped profile found anything, the final sweep found something that is
new, and a visit for another profile found something, too, then that profile does not outrank
the unscoped one. -/
private theorem not_outranks_unscoped (course : Course loader store env report)
    (hnone : namesFor (loader.visits store env report) .positive .unscoped = [])
    {profile : Profile} {a b : String}
    (ha : a ∈ namesFor (loader.visits store env report) .negative .unscoped)
    (hnew : ∀ visit ∈ loader.profileVisits store env report, a ∉ visit.names)
    (hb : b ∈ namesFor (loader.visits store env report) .positive profile) :
    ¬ Outranks (loader.visits store env report) report.added profile .unscoped := by
  intro houtranks
  have hcollected : Collected (loader.visits store env report) profile b :=
    (twoPasses ..).collected_iff.mpr (.inl hb)
  have hbefore := houtranks b a hcollected (collectedOnly_unscoped ha hnew)
  exact hbefore.asymm course.nodup_added (course.before_of_unscoped_nil hnone ha hnew hb)

/-- What is collected for a profile for which no visit found anything is collected for the
unscoped profile in the final sweep. -/
private theorem of_collected_of_namesFor_eq_nil {profile : Profile} {name : String}
    (hnil : namesFor (loader.visits store env report) .positive profile = [])
    (h : Collected (loader.visits store env report) profile name) :
    profile = .unscoped ∧ name ∈ namesFor (loader.visits store env report) .negative .unscoped ∧
      ∀ visit ∈ loader.profileVisits store env report, name ∉ visit.names := by
  rcases (twoPasses ..).collected_iff.mp h with hfound | ⟨hkey, hlate, hnew⟩
  · rw [hnil] at hfound
    cases hfound
  · refine ⟨?_, hlate, hnew⟩
    cases profile <;> simp_all [Profile.name?]

end Course

/-- A profile outranks the named profiles that were processed before it. It outranks the
unscoped profile, too, exactly when a visit for the unscoped profile found something, or visits
for the others found nothing, or the final sweep found nothing that was new. -/
theorem outranks_iff (h : (loader.load store env).result = .ok report) :
    (∀ first later, Before report.processed first later → first ≠ .unscoped →
      Outranks (loader.visits store env report) report.added later first) ∧
    ((∀ first later, Before report.processed first later →
        Outranks (loader.visits store env report) report.added later first) ↔
      namesFor (loader.visits store env report) .positive .unscoped ≠ [] ∨
      (∀ profile ∈ report.processed, profile ≠ .unscoped →
        namesFor (loader.visits store env report) .positive profile = []) ∨
      ∀ name ∈ namesFor (loader.visits store env report) .negative .unscoped,
        ∃ profile ∈ report.processed,
          name ∈ namesFor (loader.visits store env report) .positive profile) := by
  obtain ⟨course⟩ := exists_course h
  refine ⟨fun first later hbefore hfirst => ?_, fun hall => ?_, ?_⟩
  · by_cases hnil : namesFor (loader.visits store env report) .positive first = []
    · intro a b _ hb
      exact absurd (Course.of_collected_of_namesFor_eq_nil hnil hb.collected).1 hfirst
    · exact course.outranks hbefore hnil
  · by_contra hcondition
    simp only [not_or, not_forall, Classical.not_not] at hcondition
    obtain ⟨hnone, ⟨profile, hprofile, hnamed, hfound⟩, name, hname, hnew⟩ := hcondition
    have hlate : ∀ visit ∈ loader.profileVisits store env report, name ∉ visit.names :=
      fun visit hvisit hmem => hnew (exists_processed_of_mem hvisit hmem)
    obtain ⟨other, hother⟩ := List.exists_mem_of_ne_nil _ hfound
    have hbefore : Before report.processed .unscoped profile := by
      obtain ⟨more, hmore⟩ := course.exists_processed_eq
      rw [hmore] at hprofile ⊢
      exact before_cons_iff.mpr (.inl ⟨rfl, (List.mem_cons.mp hprofile).resolve_left hnamed⟩)
    exact course.not_outranks_unscoped hnone hname hlate hother (hall .unscoped profile hbefore)
  · intro hcondition first later hbefore
    by_cases hnil : namesFor (loader.visits store env report) .positive first = []
    · intro a b ha hb
      exfalso
      obtain ⟨rfl, hlate, hnew⟩ := Course.of_collected_of_namesFor_eq_nil hnil hb.collected
      rcases hcondition with hfound | hnothing | hold
      · exact hfound hnil
      · -- A profile with a name has no sources but those that visits for it found.
        have hnamed := course.name?_ne_none hbefore
        have hlater : later ≠ .unscoped := by
          rintro rfl
          exact hnamed rfl
        have hnothing := hnothing later hbefore.mem_right hlater
        exact hlater (Course.of_collected_of_namesFor_eq_nil hnothing ha).1
      · obtain ⟨profile, -, hmem⟩ := hold b hlate
        obtain ⟨visit, hvisit, hmem⟩ := (twoPasses ..).exists_mem_early hmem
        exact hnew visit hvisit hmem
    · exact course.outranks hbefore hnil

/-! ### A load in which every profile outranks those before it -/

/-- A loader whose only format has two documents, the second one for the profile `dev`. -/
def pairLoader : Loader where
  search := { locations := some "file:/" }
  registry := ⟨[{ name := "pair", extensions := ["conf"],
                  body := .fixed [[⟨"a", "1", .nowhere⟩], [⟨"profiles", "dev", .nowhere⟩]] }]⟩

def pairStore : Store := .ofTexts [("file:/application.conf", "")]

def pairReport : Report where
  locations := ["file:/"]
  names := ["application"]
  processed := [.unscoped, .requested "dev"]
  added := ["applicationConfig: [file:/application.conf] (document #1)",
    "applicationConfig: [file:/application.conf] (document #0)"]
  active := ["dev"]

theorem outranks_pair :
    Outranks (pairLoader.visits pairStore { activeNames := ["dev"] } pairReport)
      pairReport.added (.requested "dev") .unscoped := by
  have hload : (pairLoader.load pairStore { activeNames := ["dev"] }).result =
      .ok pairReport := by decide +kernel
  have hall := (outranks_iff hload).2.mpr (.inl (by decide +kernel))
  exact hall .unscoped (.requested "dev") (by decide)

/-! ### A load in which the unscoped profile comes first -/

/-- An environment in which the profile `dev` is activated. -/
def devEnvironment : Environment where
  chain := ⟨[.ofPairs "cmd" [("profiles.active", "dev")]]⟩

def negatedLoader : Loader where
  search := { locations := some "file:/" }
  registry := ⟨[.properties]⟩

/-- The file of the unscoped profile is meant for all profiles but one. -/
def negatedStore : Store :=
  .ofTexts [("file:/application.properties", "profiles=!x\na=1\n"),
    ("file:/application-dev.properties", "b=2")]

def negatedReport : Report where
  locations := ["file:/"]
  names := ["application"]
  processed := [.unscoped, .requested "dev"]
  added := ["applicationConfig: [file:/application.properties]",
    "applicationConfig: [file:/application-dev.properties]"]
  active := ["dev"]

theorem unscoped_comes_first :
    (negatedLoader.load negatedStore devEnvironment).result = .ok negatedReport ∧
      Before negatedReport.processed .unscoped (.requested "dev") ∧
      ¬ Outranks (negatedLoader.visits negatedStore devEnvironment negatedReport)
        negatedReport.added (.requested "dev") .unscoped := by
  obtain ⟨hload, hkeys, hdev, hunscoped⟩ :
      (negatedLoader.load negatedStore devEnvironment).result = .ok negatedReport ∧
      (negatedLoader.layers negatedStore devEnvironment).keys = [some "dev", none] ∧
      (negatedLoader.layers negatedStore devEnvironment).names (some "dev") =
        ["applicationConfig: [file:/application-dev.properties]"] ∧
      (negatedLoader.layers negatedStore devEnvironment).names none =
        ["applicationConfig: [file:/application.properties]"] := by
    decide +kernel
  obtain ⟨course⟩ := exists_course hload
  refine ⟨hload, by decide, fun houtranks => ?_⟩
  have hhigher : Collected (negatedLoader.visits negatedStore devEnvironment negatedReport)
      (.requested "dev") "applicationConfig: [file:/application-dev.properties]" := by
    refine course.mem_names_iff.mp ?_
    rw [Profile.name?, hdev]
    exact List.mem_singleton_self _
  have hlower : CollectedOnly
      (negatedLoader.visits negatedStore devEnvironment negatedReport) .unscoped
      "applicationConfig: [file:/application.properties]" := by
    refine course.collectedOnly_iff.mpr ⟨?_, ?_⟩
    · rw [Profile.name?, hunscoped]
      exact List.mem_singleton_self _
    · rw [hkeys]
      simp [hdev, Profile.name?]
  exact absurd (houtranks _ _ hhigher hlower) (by decide)

end Loader

end LayeredConfig
