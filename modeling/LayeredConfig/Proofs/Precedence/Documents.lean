import LayeredConfig.Proofs.Load.Siblings
import LayeredConfig.Format.BuiltIn

/-!
# The precedence of the documents of one file

A visit picks up the last document first, and what the visits for a profile find is appended.
Of two documents that were found for a profile, the later one therefore comes first as long as
both were found by the same visits. Two things stand against it. In the final sweep every
source is put at the front, so that the documents of a file turn round. And the file of a named
profile is looked at twice, for the documents that declare nothing and then for those that
declare the profile, so that the former come first wherever they stand in the file.

## Main definitions

* `DocumentRivals`: two documents of one file that their place in it should rank.

## Main results

* `Loader.later_before_iff`: when the later document comes first.
-/

namespace LayeredConfig

/-! ### Two documents of one file -/

/-- Two documents of one file, the first one before the other, that were both collected for one
profile only. -/
structure DocumentRivals (store : Store) (visits : List Visit) (profile : Profile)
    (p q : Pickup) : Prop where
  found : ∃ u ∈ visits, ∃ v ∈ visits, p ∈ u.found ∧ q ∈ v.found ∧ u.probe.index = v.probe.index ∧
    (store.resource u.probe.location).identity = (store.resource v.probe.location).identity
  order : p.index < q.index
  only_left : CollectedOnly visits profile p.name
  only_right : CollectedOnly visits profile q.name

namespace Loader

variable {loader : Loader} {store : Store} {env : Environment} {report : Report}
  {profile : Profile} {documents : List Document} {p q : Pickup}

namespace Course

section Apart

variable (course : Course loader store env report)
  (hapart : NamesApart (loader.visits store env report))
  (hp : FoundIn (loader.visits store env report) documents p)
  (hq : FoundIn (loader.visits store env report) documents q)

include course hapart hp hq

/-- Of two documents that the visits for a profile found, and of which both or neither declare
something, the later one is found before the last time the earlier one is. -/
private theorem outlasts_of_alike (hindex : p.index < q.index)
    (hpname : p.name ∈ namesFor (loader.visits store env report) .positive profile)
    (hqname : q.name ∈ namesFor (loader.visits store env report) .positive profile)
    (hdeclared : p.document.declared = [] ↔ q.document.declared = []) :
    Outlasts (namesFor (loader.visits store env report) .positive profile) p.name q.name := by
  obtain ⟨sweep, hpass, -, hnames, hmemiff⟩ := course.exists_sweep hpname
  rw [hnames] at hpname hqname ⊢
  have hpart := fun visit hvisit => ((hmemiff visit).mp hvisit).1
  refine outlasts_of_together hapart hpart hp hq hindex (fun visit hvisit hmem => ?_) hpname
  rw [Sweep.mem_names_iff_of_positive hapart hpart hq hqname hpass hvisit] at hmem
  rwa [Sweep.mem_names_iff_of_positive hapart hpart hp hpname hpass hvisit, hdeclared]

/-- Of two documents that the visits for a named profile found, one that declares something is
found after the last time one that does not is. -/
private theorem outlasts_of_declared (hnamed : profile.name? ≠ none)
    (hpname : p.name ∈ namesFor (loader.visits store env report) .positive profile)
    (hqname : q.name ∈ namesFor (loader.visits store env report) .positive profile)
    (hpdeclared : p.document.declared = []) (hqdeclared : q.document.declared ≠ []) :
    Outlasts (namesFor (loader.visits store env report) .positive profile) q.name p.name := by
  obtain ⟨sweep, hpass, hsame, hnames, hmemiff⟩ := course.exists_sweep hpname
  rw [hnames] at hpname hqname ⊢
  have hpart := fun visit hvisit => ((hmemiff visit).mp hvisit).1
  have hpiff {visit : Visit} (hvisit : visit ∈ sweep.visits (loader.context store report)
      (loader.lastRun store env).memo) :=
    Sweep.mem_names_iff_of_positive hapart hpart hp hpname hpass hvisit
  have hqiff {visit : Visit} (hvisit : visit ∈ sweep.visits (loader.context store report)
      (loader.lastRun store env).memo) :=
    Sweep.mem_names_iff_of_positive hapart hpart hq hqname hpass hvisit
  have hself : sweep.profile.name? ≠ none := by
    rw [Profile.same_iff.mp hsame]
    exact hnamed
  obtain ⟨visits₁, last, visits₂, hsplit, hlastname, hlast⟩ :=
    exists_last (p := fun visit : Visit => q.name ∈ visit.names) (List.mem_flatMap.mp hqname)
  have hlastmem : last ∈ sweep.visits (loader.context store report)
      (loader.lastRun store env).memo := by simp [hsplit]
  have hlastselector := ((hqiff hlastmem).mp hlastname).2
  rw [hsplit]
  refine outlasts_flatMap (outlasts_of_notMem hlastname fun hmem => ?_) fun later hlater hmem => ?_
  · exact hqdeclared (hlastselector.mp (((hpiff hlastmem).mp hmem).2.mpr hpdeclared))
  · -- A later visit that finds `p` is followed by one that finds `q`.
    obtain ⟨visits₃, visits₄, rfl⟩ := List.append_of_mem hlater
    have hlatermem : later ∈ sweep.visits (loader.context store report)
        (loader.lastRun store env).memo := by simp [hsplit]
    obtain ⟨hdocuments, hselector⟩ := (hpiff hlatermem).mp hmem
    have hother : later.probe.selector ≠ sweep.profile := by
      intro heq
      exact hself (heq ▸ hselector.mpr hpdeclared)
    rw [← List.cons_append, ← List.append_assoc] at hsplit
    obtain ⟨follower, hfollower, hfile, hprofile⟩ := Sweep.exists_followUp hsplit hother
    refine hlast follower (by simp [hfollower]) ((hqiff ?_).mpr ⟨hfile.trans hdocuments, ?_⟩)
    · simp [hsplit, hfollower]
    · rw [hprofile]
      exact iff_of_false hself hqdeclared

omit course hq in
/-- The visits for the unscoped profile find no document that declares something. -/
private theorem declared_eq_nil (hprofile : profile.name? = none)
    (hname : p.name ∈ namesFor (loader.visits store env report) .positive profile) :
    p.document.declared = [] := by
  obtain ⟨visit, hvisit, hpass, hsame, hname⟩ := mem_namesFor.mp hname
  obtain ⟨sweep, -, hmem⟩ := List.mem_flatMap.mp hvisit
  have hunscoped := (Profile.same_iff.mp hsame).trans hprofile
  rw [Visit.mem_names_iff hapart hvisit hp, hpass] at hname
  refine (Document.takesPart_positive_iff ?_).mp hname.2
  rcases Sweep.selector_of_mem_visits hmem with hselector | hselector <;> rw [hselector]
  · rwa [← Sweep.sweep_eq_of_mem_visits hmem]
  · rfl

omit course hq in
/-- What only the final sweep finds declares something. -/
private theorem declared_ne_nil
    (hname : p.name ∈ namesFor (loader.visits store env report) .negative .unscoped) :
    p.document.declared ≠ [] := by
  obtain ⟨visit, hvisit, hpass, -, hname⟩ := mem_namesFor.mp hname
  rw [Visit.mem_names_iff hapart hvisit hp, hpass] at hname
  exact Document.declared_ne_nil hname.2 (.inl rfl)

omit course hq in
/-- A document that was collected for the unscoped profile was found by the visits for it or by
the final sweep, according to whether it declares something. -/
private theorem mem_iff_of_unscoped (hprofile : profile.name? = none)
    (hcollected : Collected (loader.visits store env report) profile p.name) :
    (p.name ∈ namesFor (loader.visits store env report) .positive profile ↔
      p.document.declared = []) ∧
    (p.document.declared ≠ [] →
      p.name ∈ namesFor (loader.visits store env report) .negative .unscoped) := by
  rcases (twoPasses ..).collected_iff.mp hcollected with hname | ⟨-, hname, -⟩
  · have hnil := declared_eq_nil hapart hp hprofile hname
    exact ⟨iff_of_true hname hnil, fun hdeclared => absurd hnil hdeclared⟩
  · have hdeclared := declared_ne_nil hapart hp hname
    exact ⟨iff_of_false (fun hpos => hdeclared (declared_eq_nil hapart hp hprofile hpos)) hdeclared,
      fun _ => hname⟩

omit course in
/-- Of two documents that the final sweep found, it found the later one first. -/
private theorem leads_of_final (hindex : p.index < q.index)
    (hpname : p.name ∈ namesFor (loader.visits store env report) .negative .unscoped)
    (hqname : q.name ∈ namesFor (loader.visits store env report) .negative .unscoped) :
    Leads (namesFor (loader.visits store env report) .negative .unscoped) q.name p.name := by
  have hpasses := twoPasses loader store env report
  rw [hpasses.namesFor_negative, List.map_flatMap] at hpname hqname ⊢
  have hpart : ∀ visit ∈ loader.finalVisits store env report,
      visit ∈ loader.visits store env report := by
    rw [hpasses.eq]
    exact fun visit hvisit => List.mem_append_right _ hvisit
  refine leads_of_together hapart hpart hp hq hindex (fun visit hvisit hmem => ?_) hqname
  rw [Sweep.mem_names_iff_of_unscoped hapart hpart hp hpname rfl hvisit] at hmem
  rwa [Sweep.mem_names_iff_of_unscoped hapart hpart hq hqname rfl hvisit]

end Apart

/-- Of two sources that were collected for one profile only, the second comes first exactly under
a condition that places the second first where it holds, and the first first where it fails. -/
private theorem before_added_iff_of_placed (course : Course loader store env report) {c : Prop}
    (hponly : CollectedOnly (loader.visits store env report) profile p.name)
    (hqonly : CollectedOnly (loader.visits store env report) profile q.name)
    (hname : p.name ≠ q.name)
    (hlater : c → Placed (namesFor (loader.visits store env report) .positive profile)
      (namesFor (loader.visits store env report) .negative .unscoped) q.name p.name)
    (hearlier : ¬ c → Placed (namesFor (loader.visits store env report) .positive profile)
      (namesFor (loader.visits store env report) .negative .unscoped) p.name q.name) :
    Before report.added q.name p.name ↔ c := by
  refine ⟨fun hbefore => ?_, fun hc => ?_⟩
  · by_contra hc
    have hother := (course.before_added_iff hponly hqonly hname).mpr (hearlier hc)
    exact hother.asymm course.nodup_added hbefore
  · exact (course.before_added_iff hqonly hponly (Ne.symm hname)).mpr (hlater hc)

section Apart

variable (course : Course loader store env report)
  (hapart : NamesApart (loader.visits store env report))
  (hp : FoundIn (loader.visits store env report) documents p)
  (hq : FoundIn (loader.visits store env report) documents q) (hindex : p.index < q.index)
  (hponly : CollectedOnly (loader.visits store env report) profile p.name)
  (hqonly : CollectedOnly (loader.visits store env report) profile q.name)
  (hname : p.name ≠ q.name)

include course hapart hp hq hindex hponly hqonly hname

/-- For the unscoped profile, the later document comes first exactly when the earlier one
declares nothing. -/
private theorem before_added_iff_of_unscoped (hprofile : profile.name? = none) :
    Before report.added q.name p.name ↔ p.document.declared = [] := by
  obtain ⟨hpiff, hplate⟩ := mem_iff_of_unscoped hapart hp hprofile hponly.collected
  obtain ⟨hqiff, hqlate⟩ := mem_iff_of_unscoped hapart hq hprofile hqonly.collected
  refine course.before_added_iff_of_placed hponly hqonly hname (fun hpnil => ?_)
    fun hpdeclared => ?_
  · have hpname := hpiff.mpr hpnil
    refine .inl ⟨hpname, fun hqname => ?_⟩
    exact course.outlasts_of_alike hapart hp hq hindex hpname hqname
      (iff_of_true hpnil (hqiff.mp hqname))
  · have hpname := mt hpiff.mp hpdeclared
    by_cases hqnil : q.document.declared = []
    · exact .inl ⟨hqiff.mpr hqnil, fun h => absurd h hpname⟩
    · exact .inr ⟨mt hqiff.mp hqnil, hpname,
        leads_of_final hapart hp hq hindex (hplate hpdeclared) (hqlate hqnil)⟩

/-- For a named profile, the later document comes first unless it declares something and the
earlier one does not. -/
private theorem before_added_iff_of_named (hnamed : profile.name? ≠ none) :
    Before report.added q.name p.name ↔
      p.document.declared ≠ [] ∨ q.document.declared = [] := by
  have hpasses := twoPasses loader store env report
  have hpname := (hpasses.collected_iff.mp hponly.collected).resolve_right fun h => hnamed h.1
  have hqname := (hpasses.collected_iff.mp hqonly.collected).resolve_right fun h => hnamed h.1
  refine course.before_added_iff_of_placed hponly hqonly hname (fun hc => ?_) fun hc => ?_
  · refine .inl ⟨hpname, fun _ => ?_⟩
    by_cases hpnil : p.document.declared = []
    · have hqnil := hc.resolve_left (not_not_intro hpnil)
      exact course.outlasts_of_alike hapart hp hq hindex hpname hqname (iff_of_true hpnil hqnil)
    · by_cases hqnil : q.document.declared = []
      · exact course.outlasts_of_declared hapart hq hp hnamed hqname hpname hqnil hpnil
      · exact course.outlasts_of_alike hapart hp hq hindex hpname hqname
          (iff_of_false hpnil hqnil)
  · obtain ⟨hpnil, hqdeclared⟩ := not_or.mp hc
    refine .inl ⟨hqname, fun _ => ?_⟩
    exact course.outlasts_of_declared hapart hp hq hnamed hpname hqname (not_not.mp hpnil)
      hqdeclared

end Apart

end Course

/-- Of two documents of one file the later one comes first exactly as the visits place them. In a
consistent registry this can be read off what the two declare: for the unscoped profile the later
one comes first exactly when the earlier one declares nothing, and for a named profile unless the
later one declares something and the earlier one does not. -/
theorem later_before_iff (h : (loader.load store env).result = .ok report)
    (hrivals : DocumentRivals store (loader.visits store env report) profile p q) :
    (Before report.added q.name p.name ↔
      Placed (namesFor (loader.visits store env report) .positive profile)
        (namesFor (loader.visits store env report) .negative .unscoped) q.name p.name) ∧
    (loader.registry.Consistent →
      (profile.name? = none →
        (Before report.added q.name p.name ↔ p.document.declared = [])) ∧
      (profile.name? ≠ none →
        (Before report.added q.name p.name ↔
          p.document.declared ≠ [] ∨ q.document.declared = []))) := by
  obtain ⟨course⟩ := exists_course h
  obtain ⟨⟨u, hu, v, hv, hpu, hqv, hformat, hresource⟩, hindex, hponly, hqonly⟩ := hrivals
  have hdocuments := documents_eq hu hv hpu hqv hformat hresource
  have hname : p.name ≠ q.name := fun heq =>
    Nat.ne_of_lt hindex (course.index_eq_of_name_eq hu hpu hqv hdocuments heq)
  refine ⟨course.before_added_iff hqonly hponly (Ne.symm hname), fun hconsistent => ?_⟩
  have hapart := course.namesApart hconsistent
  have hp : FoundIn (loader.visits store env report) v.documents p := ⟨u, hu, hpu, hdocuments⟩
  have hq : FoundIn (loader.visits store env report) v.documents q := ⟨v, hv, hqv, rfl⟩
  exact ⟨course.before_added_iff_of_unscoped hapart hp hq hindex hponly hqonly hname,
    course.before_added_iff_of_named hapart hp hq hindex hponly hqonly hname⟩

/-- Whether two documents are rivals can be seen from the groups and from what the visits find. -/
theorem exists_rivals (course : Course loader store env report) (profile : Profile) {a b : String}
    {declared : List String}
    (hfound : ∃ u ∈ loader.visits store env report, ∃ v ∈ loader.visits store env report,
      ∃ p ∈ u.found, ∃ q ∈ v.found, (p.name = a ∧ q.name = b ∧ p.document.declared = declared) ∧
        p.index < q.index ∧ u.probe.index = v.probe.index ∧
        (store.resource u.probe.location).identity = (store.resource v.probe.location).identity)
    (honly : ∀ name ∈ [a, b], name ∈ (loader.layers store env).names profile.name? ∧
      ∀ key ∈ (loader.layers store env).keys,
        name ∈ (loader.layers store env).names key → key = profile.name?) :
    ∃ p q, (p.name = a ∧ q.name = b ∧ p.document.declared = declared) ∧
      DocumentRivals store (loader.visits store env report) profile p q := by
  obtain ⟨u, hu, v, hv, p, hp, q, hq, ⟨rfl, rfl, rfl⟩, hindex, hformat, hresource⟩ := hfound
  exact ⟨p, q, ⟨rfl, rfl, rfl⟩, ⟨u, hu, v, hv, hp, hq, hformat, hresource⟩, hindex,
    course.collectedOnly_iff.mpr (honly _ (by simp)),
    course.collectedOnly_iff.mpr (honly _ (by simp))⟩

/-! ### A load in which the later document comes first -/

/-- A loader whose only format has two documents. -/
def twinLoader : Loader where
  search := { locations := some "file:/" }
  registry := ⟨[{ name := "twin", extensions := ["conf"],
                  body := .fixed [[⟨"a", "1", .nowhere⟩], [⟨"a", "2", .nowhere⟩]] }]⟩

def twinStore : Store := .ofTexts [("file:/application.conf", "")]

def twinReport : Report where
  locations := ["file:/"]
  names := ["application"]
  processed := [.unscoped, .fallback "default"]
  added := ["applicationConfig: [file:/application.conf] (document #1)",
    "applicationConfig: [file:/application.conf] (document #0)"]
  active := []

theorem later_before_twin : Before twinReport.added
    "applicationConfig: [file:/application.conf] (document #1)"
    "applicationConfig: [file:/application.conf] (document #0)" := by
  let visits := twinLoader.visits twinStore {} twinReport
  let first := "applicationConfig: [file:/application.conf] (document #0)"
  let second := "applicationConfig: [file:/application.conf] (document #1)"
  obtain ⟨hload, hfound, honly⟩ :
      (twinLoader.load twinStore {}).result = .ok twinReport ∧
      (∃ u ∈ visits, ∃ v ∈ visits, ∃ p ∈ u.found, ∃ q ∈ v.found,
        (p.name = first ∧ q.name = second ∧ p.document.declared = []) ∧
          p.index < q.index ∧ u.probe.index = v.probe.index ∧
          (twinStore.resource u.probe.location).identity =
            (twinStore.resource v.probe.location).identity) ∧
      ∀ name ∈ [first, second], name ∈ (twinLoader.layers twinStore {}).names none ∧
        ∀ key ∈ (twinLoader.layers twinStore {}).keys,
          name ∈ (twinLoader.layers twinStore {}).names key → key = none := by
    decide +kernel
  obtain ⟨course⟩ := exists_course hload
  obtain ⟨p, q, ⟨hp, hq, hdeclared⟩, hrivals⟩ := exists_rivals course .unscoped hfound honly
  have hconsistent : twinLoader.registry.Consistent := Registry.consistent_of_plain (by decide)
  have hbefore := (((later_before_iff hload hrivals).2 hconsistent).1 rfl).mpr hdeclared
  rwa [hp, hq] at hbefore

/-! ### A load in which the earlier document comes first -/

def negatedTwinLoader : Loader where
  search := { locations := some "file:/a/" }
  registry := ⟨[.yaml]⟩

/-- Both documents of the file are meant for all profiles but one. -/
def negatedTwinStore : Store :=
  .ofTexts [("file:/a/application.yml", "profiles: '!x'\na: 1\n---\nprofiles: '!x'\na: 2\n")]

def negatedTwinReport : Report where
  locations := ["file:/a/"]
  names := ["application"]
  processed := [.unscoped, .fallback "default"]
  added := ["applicationConfig: [file:/a/application.yml] (document #0)",
    "applicationConfig: [file:/a/application.yml] (document #1)"]
  active := []

theorem earlier_comes_first :
    (negatedTwinLoader.load negatedTwinStore {}).result = .ok negatedTwinReport ∧
    ∃ p q, DocumentRivals negatedTwinStore
        (negatedTwinLoader.visits negatedTwinStore {} negatedTwinReport) .unscoped p q ∧
      ¬ Before negatedTwinReport.added q.name p.name := by
  let visits := negatedTwinLoader.visits negatedTwinStore {} negatedTwinReport
  let first := "applicationConfig: [file:/a/application.yml] (document #0)"
  let second := "applicationConfig: [file:/a/application.yml] (document #1)"
  obtain ⟨hload, hfound, honly⟩ :
      (negatedTwinLoader.load negatedTwinStore {}).result = .ok negatedTwinReport ∧
      (∃ u ∈ visits, ∃ v ∈ visits, ∃ p ∈ u.found, ∃ q ∈ v.found,
        (p.name = first ∧ q.name = second ∧ p.document.declared = ["!x"]) ∧
          p.index < q.index ∧ u.probe.index = v.probe.index ∧
          (negatedTwinStore.resource u.probe.location).identity =
            (negatedTwinStore.resource v.probe.location).identity) ∧
      ∀ name ∈ [first, second],
        name ∈ (negatedTwinLoader.layers negatedTwinStore {}).names none ∧
          ∀ key ∈ (negatedTwinLoader.layers negatedTwinStore {}).keys,
            name ∈ (negatedTwinLoader.layers negatedTwinStore {}).names key → key = none := by
    decide +kernel
  obtain ⟨course⟩ := exists_course hload
  obtain ⟨p, q, ⟨hp, hq, -⟩, hrivals⟩ := exists_rivals course .unscoped hfound honly
  refine ⟨hload, p, q, hrivals, ?_⟩
  rw [hp, hq]
  decide

end Loader

end LayeredConfig
