import LayeredConfig.Proofs.Load.Collected
import LayeredConfig.Properties

/-!
# The precedence of locations

A source that was found for a profile comes before those from locations that are probed after
its own, as long as the visits for the profile do not find it again there: a source that is
found again moves down to where it was found last. In the final sweep it is the other way
round, because every source that is new is put before those that were found until then.

## Main definitions

* `LocationRivals`: two sources that the order of the locations should rank.

## Main results

* `Loader.before_iff_of_rivals`: when the source from the first location comes first.
-/

namespace LayeredConfig

/-- Two sources that were collected for one profile only, the one from a location before that of
the other, which was collected from no location up to it. -/
structure LocationRivals (visits : List Visit) (locations : List String) (profile : Profile)
    (nearer farther a b : String) : Prop where
  order : Before locations nearer farther
  left : CollectedFrom visits profile nearer a
  right : CollectedFrom visits profile farther b
  only_left : CollectedOnly visits profile a
  only_right : CollectedOnly visits profile b
  not_nearer : ∀ root, CollectedFrom visits profile root b →
    root ≠ nearer ∧ ¬ Before locations root nearer

namespace Loader

variable {loader : Loader} {store : Store} {env : Environment} {report : Report}
  {profile : Profile} {nearer farther a b : String}

/-- The first visit that finds a source collects it in the final sweep, if no visit for a
profile found it. -/
private theorem collectedFrom_of_finalVisits {visits₁ visits₂ : List Visit} {visit : Visit}
    (hsplit : loader.finalVisits store env report = visits₁ ++ visit :: visits₂)
    (hprofile : profile.name? = none)
    (hnew : ∀ earlier ∈ loader.profileVisits store env report, a ∉ earlier.names)
    (hname : a ∈ visit.names) (hfirst : ∀ earlier ∈ visits₁, a ∉ earlier.names) :
    CollectedFrom (loader.visits store env report) profile visit.root a := by
  have hvisit : visit ∈ loader.finalVisits store env report := by simp [hsplit]
  have hunscoped := ((twoPasses ..).negative visit hvisit).2
  refine ⟨loader.profileVisits store env report ++ visits₁, visit, visits₂, ?_, ?_, rfl, hname,
    fun _ earlier hearlier => ?_⟩
  · rw [(twoPasses ..).eq, hsplit, List.append_assoc]
  · rw [Profile.same_iff, hunscoped, hprofile]
    rfl
  · rcases List.mem_append.mp hearlier with hearlier | hearlier
    · exact hnew earlier hearlier
    · exact hfirst earlier hearlier

/-- Of two sources that only the final sweep found, the one from the nearer location was found
first. -/
private theorem leads_of_rivals
    (h : LocationRivals (loader.visits store env report) report.locations profile nearer farther
      a b) (ha : a ∉ namesFor (loader.visits store env report) .positive profile)
    (hb : b ∉ namesFor (loader.visits store env report) .positive profile) :
    Leads (namesFor (loader.visits store env report) .negative .unscoped) a b := by
  have hpasses := twoPasses loader store env report
  obtain ⟨hprofile, -, hnew⟩ := (hpasses.collected_iff.mp h.only_right.collected).resolve_left hb
  obtain ⟨before, visit, after, hsplit, hsame, hroot, hname, -⟩ := h.left
  have hlate : visit ∉ loader.profileVisits store env report := by
    intro hearly
    have hvisit : visit ∈ loader.visits store env report := by simp [hsplit]
    exact ha (mem_namesFor.mpr ⟨visit, hvisit, hpasses.positive visit hearly, hsame, hname⟩)
  rw [hpasses.eq] at hsplit
  obtain ⟨done, -, hdone⟩ := exists_split_right hsplit hlate
  -- A visit up to this one that finds `b` would collect it from the nearer location or before.
  have hnone : ∀ earlier ∈ done ++ [visit], b ∉ earlier.names := by
    intro earlier hearlier hmem
    obtain ⟨visits₁, first, visits₂, hfirst, hmem, hleast⟩ :=
      exists_first (p := fun visit => b ∈ visit.names) ⟨earlier, hearlier, hmem⟩
    have hfinal : loader.finalVisits store env report =
        visits₁ ++ first :: (visits₂ ++ after) := by
      rw [hdone, List.append_cons, hfirst, List.append_assoc, List.cons_append]
    obtain ⟨hne, hbefore⟩ := h.not_nearer first.root
      (collectedFrom_of_finalVisits hfinal hprofile hnew hmem hleast)
    have hhere : first ∈ done ++ [visit] := by simp [hfirst]
    rcases List.mem_append.mp hhere with hhere | hhere
    · rcases Sweep.root_of_visits_eq hdone hhere with heq | hroots
      · exact hne (heq.trans hroot)
      · exact hbefore (hroot ▸ hroots)
    · exact hne (List.mem_singleton.mp hhere ▸ hroot)
  rw [hpasses.namesFor_negative, List.map_flatMap, hdone]
  refine leads_flatMap (fun earlier hearlier => ?_) (leads_of_notMem hname ?_)
  · exact hnone earlier (List.mem_append_left _ hearlier)
  · exact hnone visit (by simp)

/-- A source that visits for the profile found is the last one to be found when the other one
was collected from no location as far as its own. -/
private theorem outlasts_of_collectedFrom (course : Course loader store env report)
    (hb : b ∈ namesFor (loader.visits store env report) .positive profile)
    (hright : CollectedFrom (loader.visits store env report) profile farther b)
    (hleft : ∀ root, CollectedFrom (loader.visits store env report) profile root a →
      root ≠ farther ∧ ¬ Before report.locations farther root) :
    Outlasts (namesFor (loader.visits store env report) .positive profile) b a := by
  have hpasses := twoPasses loader store env report
  obtain ⟨before, visit, after, hsplit, hsame, hroot, hname, hnew⟩ := hright
  have hvisit : visit ∈ loader.visits store env report := by simp [hsplit]
  have hpass : visit.sweep.pass = .positive := hpasses.positive_of_new hsplit hnew hb
  obtain ⟨sweep, -, -, hnames, hmemiff⟩ := course.exists_sweep hb
  have hmem := (hmemiff visit).mpr ⟨hvisit, hpass, hsame⟩
  obtain ⟨visits₁, visits₂, hvisits⟩ := List.append_of_mem hmem
  rw [hnames, hvisits]
  have hnone : ∀ later ∈ visit :: visits₂, a ∉ later.names := by
    intro later hlater ha
    obtain ⟨hthere, hpos, hfor⟩ := (hmemiff later).mp (by
      rw [hvisits]
      exact List.mem_append_right _ hlater)
    obtain ⟨hne, hbefore⟩ := hleft later.root (collectedFrom_of_positive hthere hpos hfor ha)
    rcases List.mem_cons.mp hlater with rfl | hlater
    · exact hne hroot
    · obtain ⟨visits₃, visits₄, rfl⟩ := List.append_of_mem hlater
      have hsplit : sweep.visits (loader.context store report) (loader.lastRun store env).memo =
          (visits₁ ++ visit :: visits₃) ++ later :: visits₄ := by
        rw [hvisits, List.append_assoc, List.cons_append]
      have hearlier : visit ∈ visits₁ ++ visit :: visits₃ := by simp
      rcases Sweep.root_of_visits_eq hsplit hearlier with heq | hroots
      · exact hne (heq.symm.trans hroot)
      · exact hbefore (hroot ▸ hroots)
  refine outlasts_flatMap (outlasts_of_notMem hname ?_) fun later hlater => ?_
  · exact hnone visit List.mem_cons_self
  · exact hnone later (List.mem_cons_of_mem _ hlater)

/-- Of two rivals the source from the nearer location comes first exactly when a visit for the
profile found the other one, and found it after it last found the source itself. In particular
it comes first when the other one was found by a visit for the profile and it was not collected
from that location or from one that is probed later. -/
theorem before_iff_of_rivals (h : (loader.load store env).result = .ok report)
    (hrivals : LocationRivals (loader.visits store env report) report.locations profile nearer
      farther a b) :
    (Before report.added a b ↔
      b ∈ namesFor (loader.visits store env report) .positive profile ∧
        (a ∈ namesFor (loader.visits store env report) .positive profile →
          Outlasts (namesFor (loader.visits store env report) .positive profile) b a)) ∧
    (b ∈ namesFor (loader.visits store env report) .positive profile →
      (∀ root, CollectedFrom (loader.visits store env report) profile root a →
        root ≠ farther ∧ ¬ Before report.locations farther root) → Before report.added a b) := by
  obtain ⟨course⟩ := exists_course h
  have hab : a ≠ b := by
    rintro rfl
    exact (hrivals.not_nearer nearer hrivals.left).1 rfl
  have hiff : Before report.added a b ↔
      b ∈ namesFor (loader.visits store env report) .positive profile ∧
        (a ∈ namesFor (loader.visits store env report) .positive profile →
          Outlasts (namesFor (loader.visits store env report) .positive profile) b a) := by
    rw [course.before_added_iff hrivals.only_left hrivals.only_right hab, Placed]
    refine or_iff_left ?_
    rintro ⟨hb, ha, hleads⟩
    exact hleads.asymm (Ne.symm hab) (leads_of_rivals hrivals ha hb)
  refine ⟨hiff, fun hb hleft => hiff.mpr ⟨hb, fun _ => ?_⟩⟩
  exact outlasts_of_collectedFrom course hb hrivals.right hleft

/-- Whether two sources are rivals can be seen from the groups and from the visits. -/
theorem rivals_of_names (course : Course loader store env report)
    (horder : Before report.locations nearer farther)
    (hleft : CollectedFrom (loader.visits store env report) profile nearer a)
    (hright : CollectedFrom (loader.visits store env report) profile farther b)
    (honly : ∀ key ∈ (loader.layers store env).keys, ∀ name ∈ [a, b],
      name ∈ (loader.layers store env).names key ↔ key = profile.name?)
    (hfar : ∀ root ∈ (loader.visits store env report).map Visit.root,
      CollectedFrom (loader.visits store env report) profile root b →
        root ≠ nearer ∧ ¬ Before report.locations root nearer) :
    LocationRivals (loader.visits store env report) report.locations profile nearer farther
      a b := by
  have hone {root name : String} (hname : name ∈ [a, b])
      (h : CollectedFrom (loader.visits store env report) profile root name) :
      CollectedOnly (loader.visits store env report) profile name :=
    course.collectedOnly_iff.mpr ⟨course.mem_names_iff.mpr ⟨root, h⟩,
      fun key hkey => (honly key hkey name hname).mp⟩
  exact ⟨horder, hleft, hright, hone (by simp) hleft, hone (by simp) hright,
    fun root h => hfar root h.root_mem h⟩

/-! ### A load in which the nearer location comes first -/

/-- A loader that searches two locations and whose only format has one document. -/
def plainLoader : Loader where
  search := { locations := some "file:/a/,file:/b/" }
  registry := ⟨[{ name := "plain", extensions := ["conf"],
                  body := .fixed [[⟨"a", "1", .nowhere⟩]] }]⟩

def plainStore : Store :=
  .ofTexts [("file:/a/application.conf", ""), ("file:/b/application.conf", "")]

def plainReport : Report where
  locations := ["file:/b/", "file:/a/"]
  names := ["application"]
  processed := [.unscoped, .fallback "default"]
  added := ["applicationConfig: [file:/b/application.conf]",
    "applicationConfig: [file:/a/application.conf]"]
  active := []

theorem before_plain : Before plainReport.added
    "applicationConfig: [file:/b/application.conf]"
    "applicationConfig: [file:/a/application.conf]" := by
  let visits := plainLoader.visits plainStore {} plainReport
  let far := "applicationConfig: [file:/a/application.conf]"
  let near := "applicationConfig: [file:/b/application.conf]"
  obtain ⟨hload, hleft, hright, honly, hfar, hfound, hnear⟩ :
      (plainLoader.load plainStore {}).result = .ok plainReport ∧
      CollectedFrom visits .unscoped "file:/b/" near ∧
      CollectedFrom visits .unscoped "file:/a/" far ∧
      (∀ key ∈ (plainLoader.layers plainStore {}).keys, ∀ name ∈ [near, far],
        name ∈ (plainLoader.layers plainStore {}).names key ↔ key = none) ∧
      (∀ root ∈ visits.map Visit.root, CollectedFrom visits .unscoped root far →
        root ≠ "file:/b/" ∧ ¬ Before plainReport.locations root "file:/b/") ∧
      far ∈ namesFor visits .positive .unscoped ∧
      (∀ root ∈ visits.map Visit.root, CollectedFrom visits .unscoped root near →
        root ≠ "file:/a/" ∧ ¬ Before plainReport.locations "file:/a/" root) := by
    decide +kernel
  obtain ⟨course⟩ := exists_course hload
  have hrivals := rivals_of_names course (by decide) hleft hright honly hfar
  exact (before_iff_of_rivals hload hrivals).2 hfound fun root h => hnear root h.root_mem h

/-! ### A load in which the farther location comes first -/

def fartherLoader : Loader where
  search := { locations := some "file:/a/,file:/b/" }
  registry := ⟨[.properties]⟩

/-- Both files are meant for all profiles but one. -/
def fartherStore : Store :=
  .ofTexts [("file:/a/application.properties", "profiles=!x\n"),
    ("file:/b/application.properties", "profiles=!x\n")]

def fartherReport : Report where
  locations := ["file:/b/", "file:/a/"]
  names := ["application"]
  processed := [.unscoped, .fallback "default"]
  added := ["applicationConfig: [file:/a/application.properties]",
    "applicationConfig: [file:/b/application.properties]"]
  active := []

theorem farther_comes_first :
    (fartherLoader.load fartherStore {}).result = .ok fartherReport ∧
      LocationRivals (fartherLoader.visits fartherStore {} fartherReport)
        fartherReport.locations .unscoped "file:/b/" "file:/a/"
        "applicationConfig: [file:/b/application.properties]"
        "applicationConfig: [file:/a/application.properties]" ∧
      ¬ Before fartherReport.added "applicationConfig: [file:/b/application.properties]"
        "applicationConfig: [file:/a/application.properties]" := by
  let visits := fartherLoader.visits fartherStore {} fartherReport
  let far := "applicationConfig: [file:/a/application.properties]"
  let near := "applicationConfig: [file:/b/application.properties]"
  obtain ⟨hload, hleft, hright, honly, hfar⟩ :
      (fartherLoader.load fartherStore {}).result = .ok fartherReport ∧
      CollectedFrom visits .unscoped "file:/b/" near ∧
      CollectedFrom visits .unscoped "file:/a/" far ∧
      (∀ key ∈ (fartherLoader.layers fartherStore {}).keys, ∀ name ∈ [near, far],
        name ∈ (fartherLoader.layers fartherStore {}).names key ↔ key = none) ∧
      (∀ root ∈ visits.map Visit.root, CollectedFrom visits .unscoped root far →
        root ≠ "file:/b/" ∧ ¬ Before fartherReport.locations root "file:/b/") := by
    decide +kernel
  obtain ⟨course⟩ := exists_course hload
  exact ⟨hload, rivals_of_names course (by decide) hleft hright honly hfar, by decide⟩

end Loader

end LayeredConfig
