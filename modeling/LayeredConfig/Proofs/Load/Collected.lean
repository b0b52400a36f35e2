import LayeredConfig.Proofs.Layers.Ranking
import LayeredConfig.Proofs.Load.Visits

/-!
# What a load collects

A visit of the positive pass collects all that it finds. A visit of the final sweep collects
what no visit before it has found. The added sources of a load are those that were collected,
and where two of them were collected for one profile only, their order can be read off the
visits.

## Main definitions

* `CollectedFrom`, `Collected`, `CollectedOnly`: what was collected, for which profile, and from
  which entry of the search path.
* `namesFor`: the names that the visits for a profile find in a pass.

## Main results

* `Loader.Course.mem_names_iff`: the groups of the layers hold what was collected.
* `Loader.Course.before_added_iff`: the order of two added sources.
-/

namespace LayeredConfig

/-- The names of what a visit finds. -/
def Visit.names (visit : Visit) : List String :=
  visit.found.map Pickup.name

/-- The names that the visits for a profile find in a pass, in order. -/
def namesFor (visits : List Visit) (pass : Pass) (profile : Profile) : List String :=
  (visits.filter fun visit =>
    visit.sweep.pass = pass ∧ visit.sweep.profile.same profile).flatMap Visit.names

/-- A source was collected for a profile while an entry of the search path was looked at: a
visit for the profile found it and, in the negative pass, no earlier visit did. -/
def CollectedFrom (visits : List Visit) (profile : Profile) (root name : String) : Prop :=
  ∃ before visit after, visits = before ++ visit :: after ∧
    visit.sweep.profile.same profile ∧ visit.root = root ∧ name ∈ visit.names ∧
      (visit.sweep.pass = .negative → ∀ earlier ∈ before, name ∉ earlier.names)

/-- A source was collected for a profile. -/
def Collected (visits : List Visit) (profile : Profile) (name : String) : Prop :=
  ∃ root, CollectedFrom visits profile root name

/-- A source was collected for a profile and for no other. -/
structure CollectedOnly (visits : List Visit) (profile : Profile) (name : String) : Prop where
  collected : Collected visits profile name
  only : ∀ other, Collected visits other name → other.same profile

/-! ### The two passes -/

/-- Visits of the positive pass, and then visits of the negative pass for the unscoped
profile. -/
structure TwoPasses (visits early late : List Visit) : Prop where
  eq : visits = early ++ late
  positive : ∀ visit ∈ early, visit.sweep.pass = .positive
  negative : ∀ visit ∈ late, visit.sweep.pass = .negative ∧ visit.sweep.profile = .unscoped

/-- A visit finds the documents that take part. -/
theorem Visit.mem_found_iff {visit : Visit} {pickup : Pickup} : pickup ∈ visit.found ↔
    visit.documents[pickup.index]? = some pickup.document ∧
      pickup.document.takesPart visit.sweep.pass visit.probe.selector visit.sweep.env = true ∧
      pickup.profile = visit.sweep.profile ∧ pickup.placement = visit.sweep.pass.placement ∧
      pickup.location = visit.probe.location := by
  simp only [found, Sweep.picked, List.mem_map, List.mem_reverse, List.mem_filter]
  constructor
  · rintro ⟨⟨document, index⟩, ⟨hentry, htakes⟩, rfl⟩
    exact ⟨List.mk_mem_zipIdx_iff_getElem?.mp hentry, htakes, rfl, rfl, rfl⟩
  · rintro ⟨hdocument, htakes, hprofile, hplacement, hlocation⟩
    refine ⟨(pickup.document, pickup.index), ⟨?_, htakes⟩, ?_⟩
    · exact List.mk_mem_zipIdx_iff_getElem?.mpr hdocument
    · rw [← hprofile, ← hplacement, ← hlocation]

theorem Visit.mem_found {visit : Visit} {pickup : Pickup} (h : pickup ∈ visit.found) :
    pickup.profile = visit.sweep.profile ∧ pickup.placement = visit.sweep.pass.placement := by
  obtain ⟨-, -, hprofile, hplacement, -⟩ := mem_found_iff.mp h
  exact ⟨hprofile, hplacement⟩

/-- A visit finds a document that takes part under its name. -/
theorem Visit.mem_names_of_takesPart {visit : Visit} {document : Document} {index : Nat}
    (hdocument : visit.documents[index]? = some document)
    (htakes : document.takesPart visit.sweep.pass visit.probe.selector visit.sweep.env = true) :
    document.source.name ∈ visit.names := by
  let pickup : Pickup :=
    { profile := visit.sweep.profile, placement := visit.sweep.pass.placement,
      location := visit.probe.location, index, document }
  have hfound : pickup ∈ visit.found := mem_found_iff.mpr ⟨hdocument, htakes, rfl, rfl, rfl⟩
  exact List.mem_map_of_mem hfound

theorem mem_namesFor {visits : List Visit} {pass : Pass} {profile : Profile} {name : String} :
    name ∈ namesFor visits pass profile ↔ ∃ visit ∈ visits, visit.sweep.pass = pass ∧
      visit.sweep.profile.same profile ∧ name ∈ visit.names := by
  simp only [namesFor, List.mem_flatMap, List.mem_filter, decide_eq_true_eq, and_assoc]

private theorem namesFor_found (visit : Visit) (key : Option String) :
    Pickup.namesFor visit.found key =
      if visit.sweep.profile.name? = key then visit.names else [] := by
  unfold Pickup.namesFor
  split
  · next hkey =>
    rw [List.filter_eq_self.mpr fun pickup hpickup => ?_, Visit.names]
    rw [(Visit.mem_found hpickup).1]
    simpa using hkey
  · next hkey =>
    rw [List.filter_eq_nil_iff.mpr fun pickup hpickup => ?_, List.map_nil]
    rw [(Visit.mem_found hpickup).1]
    simpa using hkey

private theorem namesFor_flatMap_found {visits : List Visit}
    (h : ∀ visit ∈ visits, visit.sweep.pass = .positive) (profile : Profile) :
    Pickup.namesFor (visits.flatMap Visit.found) profile.name? =
      namesFor visits .positive profile := by
  induction visits with
  | nil => rfl
  | cons visit visits ih =>
    have ih := ih fun v hv => h v (List.mem_cons_of_mem _ hv)
    have hfirst : visit.sweep.pass = .positive := h visit (by simp)
    rw [List.flatMap_cons, Pickup.namesFor, List.filter_append, List.map_append]
    change Pickup.namesFor visit.found _ ++ Pickup.namesFor _ _ = _
    rw [ih, namesFor_found, namesFor, namesFor]
    by_cases hsame : visit.sweep.profile.name? = profile.name?
    · rw [if_pos hsame, List.filter_cons_of_pos (by simp [hfirst, hsame]), List.flatMap_cons]
    · rw [if_neg hsame, List.filter_cons_of_neg (by simp [hfirst, hsame]), List.nil_append]

/-- A visit of the positive pass collects all that it finds. -/
theorem collectedFrom_of_positive {visits : List Visit} {visit : Visit} {profile : Profile}
    {name : String} (hvisit : visit ∈ visits) (hpass : visit.sweep.pass = .positive)
    (hprofile : visit.sweep.profile.same profile) (hname : name ∈ visit.names) :
    CollectedFrom visits profile visit.root name := by
  obtain ⟨before, after, hsplit⟩ := List.append_of_mem hvisit
  refine ⟨before, visit, after, hsplit, hprofile, rfl, hname, fun hnegative => ?_⟩
  rw [hpass] at hnegative
  cases hnegative

/-- A source is collected by the visits of the positive pass that find it, and by the first visit
of all that does. -/
theorem collectedFrom_iff {visits : List Visit} {profile : Profile} {root name : String} :
    CollectedFrom visits profile root name ↔
      (∃ visit ∈ visits, visit.sweep.pass = .positive ∧ visit.sweep.profile.same profile ∧
        visit.root = root ∧ name ∈ visit.names) ∨
      (visits.find? fun visit => name ∈ visit.names).any fun visit =>
        visit.sweep.profile.same profile ∧ visit.root = root := by
  constructor
  · rintro ⟨before, visit, after, hsplit, hprofile, hroot, hname, hnew⟩
    cases hpass : visit.sweep.pass with
    | positive => exact .inl ⟨visit, by simp [hsplit], hpass, hprofile, hroot, hname⟩
    | negative =>
      have hfirst : visits.find? (fun visit => name ∈ visit.names) = some visit :=
        List.find?_eq_some_iff_append.mpr
          ⟨decide_eq_true hname, before, after, hsplit, by simpa using hnew hpass⟩
      refine .inr ?_
      rw [hfirst, Option.any_some]
      exact decide_eq_true ⟨hprofile, hroot⟩
  · rintro (⟨visit, hvisit, hpass, hprofile, rfl, hname⟩ | hfirst)
    · exact collectedFrom_of_positive hvisit hpass hprofile hname
    · obtain ⟨visit, hfind, hvisit⟩ := (Option.any_eq_true _ _).mp hfirst
      obtain ⟨hprofile, hroot⟩ := of_decide_eq_true hvisit
      obtain ⟨hname, before, after, hsplit, hbefore⟩ := List.find?_eq_some_iff_append.mp hfind
      refine ⟨before, visit, after, hsplit, hprofile, hroot, of_decide_eq_true hname, ?_⟩
      exact fun _ earlier hearlier => by simpa using hbefore earlier hearlier

instance (visits : List Visit) (profile : Profile) (root name : String) :
    Decidable (CollectedFrom visits profile root name) :=
  decidable_of_iff _ collectedFrom_iff.symm

theorem CollectedFrom.root_mem {visits : List Visit} {profile : Profile} {root name : String}
    (h : CollectedFrom visits profile root name) : root ∈ visits.map Visit.root := by
  obtain ⟨before, visit, after, rfl, -, rfl, -, -⟩ := h
  exact List.mem_map_of_mem (by simp)

namespace TwoPasses

variable {visits early late : List Visit} {profile : Profile} {name : String}

theorem namesFor_positive (h : TwoPasses visits early late) (profile : Profile) :
    namesFor visits .positive profile =
      Pickup.namesFor (early.flatMap Visit.found) profile.name? := by
  have hlate : late.filter (fun visit =>
      visit.sweep.pass = .positive ∧ visit.sweep.profile.same profile) = [] := by
    refine List.filter_eq_nil_iff.mpr fun visit hvisit => ?_
    simp [(h.negative visit hvisit).1]
  rw [namesFor_flatMap_found h.positive, namesFor, h.eq, List.filter_append, hlate,
    List.append_nil, namesFor]

theorem namesFor_negative (h : TwoPasses visits early late) :
    namesFor visits .negative .unscoped = (late.flatMap Visit.found).map Pickup.name := by
  have hlate : late.filter (fun visit =>
      visit.sweep.pass = .negative ∧ visit.sweep.profile.same .unscoped) = late := by
    refine List.filter_eq_self.mpr fun visit hvisit => ?_
    obtain ⟨hpass, hprofile⟩ := h.negative visit hvisit
    simp [hpass, hprofile]
  have hearly : early.filter (fun visit =>
      visit.sweep.pass = .negative ∧ visit.sweep.profile.same .unscoped) = [] := by
    refine List.filter_eq_nil_iff.mpr fun visit hvisit => ?_
    simp [h.positive visit hvisit]
  rw [namesFor, h.eq, List.filter_append, hearly, hlate, List.nil_append, List.map_flatMap]
  rfl

/-- What is found for a profile is found by a visit of the first pass. -/
theorem exists_mem_early (h : TwoPasses visits early late)
    (hname : name ∈ namesFor visits .positive profile) :
    ∃ visit ∈ early, name ∈ visit.names := by
  obtain ⟨visit, hvisit, hpass, -, hname⟩ := mem_namesFor.mp hname
  rw [h.eq, List.mem_append] at hvisit
  refine ⟨visit, hvisit.resolve_right fun hlate => ?_, hname⟩
  rw [(h.negative visit hlate).1] at hpass
  cases hpass

/-- What is found for a profile is not collected in the final sweep. -/
theorem positive_of_new (h : TwoPasses visits early late) {before after : List Visit}
    {visit : Visit} (hsplit : visits = before ++ visit :: after)
    (hnew : visit.sweep.pass = .negative → ∀ earlier ∈ before, name ∉ earlier.names)
    (hname : name ∈ namesFor visits .positive profile) : visit.sweep.pass = .positive := by
  cases hpass : visit.sweep.pass with
  | positive => rfl
  | negative =>
    have hlate : visit ∉ early := fun hmem => by
      rw [h.positive visit hmem] at hpass
      cases hpass
    obtain ⟨earlier, hearlier, hfound⟩ := h.exists_mem_early hname
    rw [h.eq] at hsplit
    obtain ⟨done, rfl, -⟩ := exists_split_right hsplit hlate
    exact absurd hfound (hnew hpass earlier (List.mem_append_left _ hearlier))

/-- What was collected for a profile: all that its visits found, and for the unscoped profile
what only the final visits found. -/
theorem collected_iff (h : TwoPasses visits early late) :
    Collected visits profile name ↔
      name ∈ namesFor visits .positive profile ∨
        profile.name? = none ∧ name ∈ namesFor visits .negative .unscoped ∧
          ∀ visit ∈ early, name ∉ visit.names := by
  constructor
  · rintro ⟨root, before, visit, after, hsplit, hprofile, -, hname, hnew⟩
    have hvisit : visit ∈ visits := by simp [hsplit]
    cases hpass : visit.sweep.pass with
    | positive => exact .inl (mem_namesFor.mpr ⟨visit, hvisit, hpass, hprofile, hname⟩)
    | negative =>
      have hlate : visit ∉ early := fun hmem => by
        rw [h.positive visit hmem] at hpass
        cases hpass
      rw [h.eq] at hsplit
      obtain ⟨done, rfl, hdone⟩ := exists_split_right hsplit hlate
      have hunscoped := (h.negative visit (by simp [hdone])).2
      rw [hunscoped, Profile.same_iff] at hprofile
      refine .inr ⟨hprofile.symm, mem_namesFor.mpr ⟨visit, hvisit, hpass, ?_, hname⟩, ?_⟩
      · rw [hunscoped, Profile.same_iff]
      · exact fun earlier hearlier => hnew hpass earlier (List.mem_append_left _ hearlier)
  · rintro (hname | ⟨hkey, hname, hnew⟩)
    · obtain ⟨visit, hvisit, hpass, hprofile, hname⟩ := mem_namesFor.mp hname
      exact ⟨visit.root, collectedFrom_of_positive hvisit hpass hprofile hname⟩
    · obtain ⟨visit, hvisit, hpass, hprofile, hname⟩ := mem_namesFor.mp hname
      obtain ⟨before, first, after, hsplit, hfirst, hbefore⟩ :=
        exists_first (p := fun visit => name ∈ visit.names) ⟨visit, hvisit, hname⟩
      have hlate : first ∉ early := fun hmem => hnew first hmem hfirst
      have hmem : first ∈ late := by
        rw [h.eq] at hsplit
        obtain ⟨done, -, hdone⟩ := exists_split_right hsplit hlate
        simp [hdone]
      refine ⟨first.root, before, first, after, hsplit, ?_, rfl, hfirst, fun _ => hbefore⟩
      rw [Profile.same_iff, (h.negative first hmem).2, hkey]
      rfl

end TwoPasses

/-! ### The visits of a load -/

theorem Sweep.sweep_eq_of_mem_visits {sweep : Sweep} {ctx : LoadContext} {memo : DocumentMemo}
    {visit : Visit} (h : visit ∈ sweep.visits ctx memo) : visit.sweep = sweep := by
  unfold Sweep.visits at h
  obtain ⟨root, -, h⟩ := List.mem_flatMap.mp h
  obtain ⟨probe, -, rfl⟩ := List.mem_map.mp h
  rfl

theorem Sweep.documents_of_mem_visits {sweep : Sweep} {ctx : LoadContext} {memo : DocumentMemo}
    {visit : Visit} (h : visit ∈ sweep.visits ctx memo) :
    visit.documents = visit.probe.documents ctx.store memo := by
  obtain ⟨root, -, h⟩ := List.mem_flatMap.mp h
  obtain ⟨probe, -, rfl⟩ := List.mem_map.mp h
  rfl

/-- The visits of a sweep go through the search path in order. -/
theorem Sweep.root_of_visits_eq {sweep : Sweep} {ctx : LoadContext} {memo : DocumentMemo}
    {visits₁ visits₂ : List Visit} {visit earlier : Visit}
    (h : sweep.visits ctx memo = visits₁ ++ visit :: visits₂) (hearlier : earlier ∈ visits₁) :
    earlier.root = visit.root ∨ Before ctx.plan.locations earlier.root visit.root := by
  have hbefore : Before ((sweep.visits ctx memo).map Visit.root) earlier.root visit.root := by
    rw [h]
    exact (before_append hearlier (by simp)).map Visit.root
  rw [Sweep.visits, List.map_flatMap] at hbefore
  have horder := hbefore.of_flatMap (g := id) fun root _ found hfound => by
    rw [List.map_map] at hfound
    obtain ⟨probe, -, rfl⟩ := List.mem_map.mp hfound
    rfl
  rwa [List.map_id] at horder

theorem Sweep.filter_visits (ctx : LoadContext) (memo : DocumentMemo) (p : Sweep → Bool)
    (sweeps : List Sweep) :
    (sweeps.flatMap fun sweep => sweep.visits ctx memo).filter (fun visit => p visit.sweep) =
      (sweeps.filter p).flatMap fun sweep => sweep.visits ctx memo := by
  induction sweeps with
  | nil => rfl
  | cons sweep sweeps ih =>
    rw [List.flatMap_cons, List.filter_append, ih]
    by_cases hp : p sweep = true
    · rw [List.filter_cons_of_pos hp, List.flatMap_cons, List.filter_eq_self.mpr]
      intro visit hvisit
      rwa [sweep_eq_of_mem_visits hvisit]
    · rw [List.filter_cons_of_neg hp, List.filter_eq_nil_iff.mpr, List.nil_append]
      intro visit hvisit
      rwa [sweep_eq_of_mem_visits hvisit]

theorem Sweep.mem_ofProfiles {sweep : Sweep} {env : Environment} {earlier profiles : List Profile}
    (h : sweep ∈ ofProfiles env earlier profiles) :
    sweep.pass = .positive ∧ sweep.profile ∈ profiles := by
  induction profiles generalizing env earlier with
  | nil => cases h
  | cons profile profiles ih =>
    rcases List.mem_cons.mp h with rfl | h
    · exact ⟨rfl, List.mem_cons_self⟩
    · exact (ih h).imp_right (List.mem_cons_of_mem _)

theorem Sweep.map_profile_ofProfiles (env : Environment) (earlier profiles : List Profile) :
    (ofProfiles env earlier profiles).map Sweep.profile = profiles := by
  induction profiles generalizing env earlier with
  | nil => rfl
  | cons profile profiles ih => rw [ofProfiles, List.map_cons, ih]

theorem Profile.exists_name?_eq (key : Option String) :
    ∃ profile : Profile, profile.name? = key := by
  cases key with
  | none => exact ⟨.unscoped, rfl⟩
  | some name => exact ⟨.requested name, rfl⟩

namespace Loader

variable {loader : Loader} {store : Store} {env : Environment} {report : Report}

/-- The visits for the profiles of a load. -/
def profileVisits (loader : Loader) (store : Store) (env : Environment) (report : Report) :
    List Visit :=
  (Sweep.ofProfiles (hide env) [] report.processed).flatMap fun sweep =>
    sweep.visits (loader.context store report) (loader.lastRun store env).memo

/-- The visits with which a load ends. -/
def finalVisits (loader : Loader) (store : Store) (env : Environment) (report : Report) :
    List Visit :=
  (report.finalSweep (hide env)).visits (loader.context store report)
    (loader.lastRun store env).memo

theorem twoPasses (loader : Loader) (store : Store) (env : Environment) (report : Report) :
    TwoPasses (loader.visits store env report) (loader.profileVisits store env report)
      (loader.finalVisits store env report) where
  eq := by
    rw [visits, Report.sweeps, List.flatMap_append, List.flatMap_singleton]
    rfl
  positive visit h := by
    obtain ⟨sweep, hsweep, hvisit⟩ := List.mem_flatMap.mp h
    rw [Sweep.sweep_eq_of_mem_visits hvisit]
    exact (Sweep.mem_ofProfiles hsweep).1
  negative visit h := by
    rw [Sweep.sweep_eq_of_mem_visits h]
    exact ⟨rfl, rfl⟩

theorem placement_of_mem_profileVisits (pickup : Pickup)
    (h : pickup ∈ (loader.profileVisits store env report).flatMap Visit.found) :
    pickup.placement = .append := by
  obtain ⟨visit, hvisit, hfound⟩ := List.mem_flatMap.mp h
  rw [(Visit.mem_found hfound).2, (twoPasses ..).positive visit hvisit]
  rfl

theorem placement_of_mem_finalVisits (pickup : Pickup)
    (h : pickup ∈ (loader.finalVisits store env report).flatMap Visit.found) :
    pickup.placement = .prependIfAbsent ∧ pickup.profile = .unscoped := by
  obtain ⟨visit, hvisit, hfound⟩ := List.mem_flatMap.mp h
  obtain ⟨hpass, hprofile⟩ := (twoPasses ..).negative visit hvisit
  obtain ⟨hpickup, hplacement⟩ := Visit.mem_found hfound
  rw [hplacement, hpass, hpickup, hprofile]
  exact ⟨rfl, rfl⟩

namespace Course

variable {profile : Profile} {name a b : String}

theorem layers_eq (course : Course loader store env report) :
    loader.layers store env =
      (Layers.gather {} ((loader.profileVisits store env report).flatMap Visit.found)).gather
        ((loader.finalVisits store env report).flatMap Visit.found) := by
  rw [layers, Layers.ofPickups_eq_gather, course.pickups_eq, (twoPasses ..).eq,
    List.flatMap_append, Layers.gather, List.foldl_append]
  rfl

theorem nodup_keys (course : Course loader store env report) :
    (loader.layers store env).keys.Nodup := by
  rw [course.layers_eq]
  exact Layers.nodup_keys_gather (Layers.nodup_keys_gather (by simp [Layers.keys]) _) _

theorem nodup_added (course : Course loader store env report) : report.added.Nodup := by
  rw [course.added_eq]
  exact Layers.nodup_collected_names course.nodup_keys

/-- The visits for a profile that find something are those of one sweep. -/
theorem exists_sweep (course : Course loader store env report)
    (h : name ∈ namesFor (loader.visits store env report) .positive profile) :
    ∃ sweep : Sweep, sweep.pass = .positive ∧ sweep.profile.same profile ∧
      namesFor (loader.visits store env report) .positive profile =
        (sweep.visits (loader.context store report) (loader.lastRun store env).memo).flatMap
          Visit.names ∧
      ∀ visit, visit ∈ sweep.visits (loader.context store report) (loader.lastRun store env).memo ↔
        visit ∈ loader.visits store env report ∧ visit.sweep.pass = .positive ∧
          visit.sweep.profile.same profile := by
  obtain ⟨visit, hvisit, hpass, hprofile, -⟩ := mem_namesFor.mp h
  obtain ⟨sweep, hsweep, hmem⟩ := List.mem_flatMap.mp hvisit
  rw [Sweep.sweep_eq_of_mem_visits hmem] at hpass hprofile
  have hsearch : sweep ∈ Sweep.ofProfiles (hide env) [] report.processed := by
    refine (List.mem_append.mp hsweep).resolve_right fun hfinal => ?_
    rw [List.mem_singleton.mp hfinal] at hpass
    cases hpass
  have hnodup : ((Sweep.ofProfiles (hide env) [] report.processed).map
      fun sweep => sweep.profile.name?).Nodup := by
    have hprofiles := Sweep.map_profile_ofProfiles (hide env) [] report.processed
    have hnames := course.nodup_processed
    rwa [profileNames, ← congrArg (List.map Profile.name?) hprofiles, List.map_map] at hnames
  let selects (sweep : Sweep) : Bool := sweep.pass = .positive ∧ sweep.profile.same profile
  have hfilter : (loader.visits store env report).filter (fun visit => selects visit.sweep) =
      sweep.visits (loader.context store report) (loader.lastRun store env).memo := by
    have hfinal : [report.finalSweep (hide env)].filter selects = [] := by
      simp [selects, Report.finalSweep]
    have hselects (sweep : Sweep) (h : selects sweep = true) :
        sweep.profile.name? = profile.name? :=
      Profile.same_iff.mp (of_decide_eq_true h).2
    rw [visits, Sweep.filter_visits, Report.sweeps, List.filter_append, hfinal,
      filter_eq_singleton hnodup hselects hsearch (decide_eq_true ⟨hpass, hprofile⟩)]
    simp
  refine ⟨sweep, hpass, hprofile, ?_, fun visit => ?_⟩
  · rw [← hfilter]
    rfl
  · rw [← hfilter, List.mem_filter]
    exact and_congr_right fun _ => decide_eq_true_iff

/-- The groups of the layers hold what was collected. -/
theorem mem_names_iff (course : Course loader store env report) :
    name ∈ (loader.layers store env).names profile.name? ↔
      Collected (loader.visits store env report) profile name := by
  have hpasses := twoPasses loader store env report
  rw [course.layers_eq, Layers.mem_names_iff placement_of_mem_profileVisits
    placement_of_mem_finalVisits, hpasses.collected_iff, hpasses.namesFor_positive,
    hpasses.namesFor_negative]
  simp [List.map_flatMap, Visit.names]

/-- The added sources are those that visits find. -/
theorem mem_added_iff (course : Course loader store env report) :
    name ∈ report.added ↔ ∃ visit ∈ loader.visits store env report, name ∈ visit.names := by
  rw [course.added_eq, Layers.collected_names course.nodup_keys, List.mem_eraseDups,
    List.mem_flatMap]
  constructor
  · rintro ⟨key, -, hname⟩
    obtain ⟨profile, rfl⟩ := Profile.exists_name?_eq key
    obtain ⟨root, before, visit, after, hsplit, -, -, hname, -⟩ := course.mem_names_iff.mp hname
    exact ⟨visit, by simp [hsplit], hname⟩
  · intro hfound
    obtain ⟨before, visit, after, hsplit, hname, hnew⟩ :=
      exists_first (p := fun visit : Visit => name ∈ visit.names) hfound
    have hcollected : Collected (loader.visits store env report) visit.sweep.profile name :=
      ⟨visit.root, before, visit, after, hsplit, Profile.same_iff.mpr rfl, rfl, hname,
        fun _ => hnew⟩
    have hmem := course.mem_names_iff.mpr hcollected
    exact ⟨_, List.mem_reverse.mpr (Layers.mem_keys_of_mem_names hmem), hmem⟩

/-- A source that was collected for one profile only is in no other group. -/
theorem eq_of_mem_names (course : Course loader store env report)
    (h : CollectedOnly (loader.visits store env report) profile name) {key : Option String}
    (hkey : name ∈ (loader.layers store env).names key) : key = profile.name? := by
  obtain ⟨other, rfl⟩ := Profile.exists_name?_eq key
  exact Profile.same_iff.mp (h.only other (course.mem_names_iff.mp hkey))

/-- Whether a source was collected for one profile only can be seen from the groups. -/
theorem collectedOnly_iff (course : Course loader store env report) :
    CollectedOnly (loader.visits store env report) profile name ↔
      name ∈ (loader.layers store env).names profile.name? ∧
        ∀ key ∈ (loader.layers store env).keys,
          name ∈ (loader.layers store env).names key → key = profile.name? := by
  constructor
  · intro h
    exact ⟨course.mem_names_iff.mpr h.collected, fun key _ hkey => course.eq_of_mem_names h hkey⟩
  · rintro ⟨hname, honly⟩
    refine ⟨course.mem_names_iff.mp hname, fun other hother => ?_⟩
    have hmem := course.mem_names_iff.mpr hother
    exact Profile.same_iff.mpr (honly _ (Layers.mem_keys_of_mem_names hmem) hmem)

/-- Two added sources that were collected for one profile only stand as their visits place
them. -/
theorem before_added_iff (course : Course loader store env report)
    (ha : CollectedOnly (loader.visits store env report) profile a)
    (hb : CollectedOnly (loader.visits store env report) profile b) (hab : a ≠ b) :
    Before report.added a b ↔
      Placed (namesFor (loader.visits store env report) .positive profile)
        (namesFor (loader.visits store env report) .negative .unscoped) a b := by
  have hpasses := twoPasses loader store env report
  have hmema := course.mem_names_iff.mpr ha.collected
  have hmemb := course.mem_names_iff.mpr hb.collected
  have hnodup : ((loader.layers store env).names profile.name?).Nodup := by
    rw [course.layers_eq]
    exact Layers.nodup_names placement_of_mem_profileVisits placement_of_mem_finalVisits _
  rw [course.added_eq]
  rw [Layers.before_collected_iff course.nodup_keys hnodup hmema hmemb
    (fun other => course.eq_of_mem_names ha) (fun other => course.eq_of_mem_names hb) hab]
  rw [course.layers_eq] at hmema hmemb ⊢
  rw [Layers.before_names_iff placement_of_mem_profileVisits placement_of_mem_finalVisits hmema
    hmemb hab, hpasses.namesFor_positive, hpasses.namesFor_negative]

end Course

end Loader

end LayeredConfig
