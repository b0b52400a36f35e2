import LayeredConfig.Proofs.Load.Phases
import LayeredConfig.Proofs.Profile.Queue

/-!
# What a load makes active on its way

A profile that was asked for becomes active in the environment when it is taken from the queue,
before its documents are looked for. Nothing else of the environment changes while a load runs.
So the environment, at any time, is the one with which the run began, with the profiles that were
taken from the queue made active.

## Main definitions

* `Environment.newNames`, `Environment.announcing`: profiles that become active one after the
  other.
* `Run.StuckAt`, `Loader.StuckAt`: a profile was taken from the queue and could not be processed.

## Main results

* `Environment.activeNames_announcing_iff`: what is stored stays the same iff no name is new.
* `Loader.env_lastRun`: the environment of a load when its run is over, whether or not it failed.
-/

namespace LayeredConfig

open Relation (ReflTransGen)

theorem Profile.mem_names_requested {name : String} {profiles : List Profile} :
    name ∈ Profile.names (profiles.filter Profile.isRequested) ↔ .requested name ∈ profiles := by
  simp only [Profile.names, List.mem_filterMap, List.mem_filter]
  constructor
  · rintro ⟨p, ⟨hp, hasked⟩, hname⟩
    cases p with
    | requested other =>
      cases hname
      exact hp
    | unscoped => cases hasked
    | fallback => cases hasked
  · exact fun h => ⟨_, ⟨h, rfl⟩, rfl⟩

namespace Environment

/-- The active profiles, none where they cannot be told. -/
def activeOrNone (env : Environment) : List String :=
  match env.active with
  | .ok active => active
  | .error _ => []

/-- The names of the profiles that were asked for and are not active. -/
def newNames (env : Environment) (profiles : List Profile) : List String :=
  (Profile.names (profiles.filter Profile.isRequested)).filter fun name =>
    !env.activeOrNone.contains name

/-- The environment in which the profiles that were asked for are active. As long as none of them
is new, no active profile is stored. -/
def announcing (env : Environment) (profiles : List Profile) : Environment :=
  if (env.newNames profiles).isEmpty then env
  else { env with activeNames := env.activeOrNone ++ env.newNames profiles }

variable {env after : Environment} {profiles : List Profile} {profile : Profile}
  {active : List String}

/-- The active profiles that are stored are the active ones, if there are some. -/
theorem active_of_stored (h : env.activeNames ≠ []) : env.active = .ok env.activeNames := by
  rw [Environment.active, if_neg (by simpa using h)]

theorem activeOrNone_eq (h : env.active = .ok active) : env.activeOrNone = active := by
  rw [activeOrNone, h]

theorem newNames_append (profiles more : List Profile) :
    env.newNames (profiles ++ more) = env.newNames profiles ++ env.newNames more := by
  simp [newNames, Profile.names]

@[simp] theorem announcing_nil : env.announcing [] = env := rfl

@[simp] theorem chain_announcing : (env.announcing profiles).chain = env.chain := by
  unfold announcing
  split <;> rfl

@[simp] theorem defaultNames_announcing :
    (env.announcing profiles).defaultNames = env.defaultNames := by
  unfold announcing
  split <;> rfl

private theorem announcing_of_ne (h : env.newNames profiles ≠ []) :
    env.announcing profiles =
      { env with activeNames := env.activeOrNone ++ env.newNames profiles } := by
  rw [announcing, if_neg (by simpa using h)]

/-- The active profiles are the old ones and the new ones. -/
theorem active_announcing (hactive : env.active = .ok active) (profiles : List Profile) :
    (env.announcing profiles).active = .ok (active ++ env.newNames profiles) := by
  unfold announcing
  split
  · next hnil =>
    rw [List.isEmpty_iff.mp hnil, List.append_nil]
    exact hactive
  · next hsome =>
    rw [Environment.active, activeOrNone_eq hactive]
    simp_all

/-- What is stored stays the same iff no name is new. -/
theorem activeNames_announcing_iff :
    (env.announcing profiles).activeNames = env.activeNames ↔ env.newNames profiles = [] := by
  refine ⟨fun h => ?_, fun h => by rw [announcing, h]; rfl⟩
  by_contra hsome
  rw [announcing_of_ne hsome] at h
  by_cases hstored : env.activeNames = []
  · rw [hstored] at h
    exact hsome (List.append_eq_nil_iff.mp h).2
  · rw [activeOrNone_eq (active_of_stored hstored)] at h
    exact hsome (List.append_cancel_left (h.trans (List.append_nil _).symm))

/-- Profiles without a new name change nothing. -/
theorem announcing_append_of_nil {more : List Profile} (h : env.newNames more = []) :
    env.announcing (profiles ++ more) = env.announcing profiles := by
  rw [announcing, newNames_append, h, List.append_nil, announcing]

/-- The new names are those of the profiles that were asked for and are not active. -/
theorem mem_newNames {name : String} (hactive : env.active = .ok active) :
    name ∈ env.newNames profiles ↔ .requested name ∈ profiles ∧ name ∉ active := by
  rw [newNames, activeOrNone_eq hactive, List.mem_filter, Profile.mem_names_requested]
  simp

/-- What is active and what is new: the profiles that were active, and those that were asked
for. -/
theorem mem_active_newNames {name : String} (hactive : env.active = .ok active) :
    name ∈ active ++ env.newNames profiles ↔ name ∈ active ∨ .requested name ∈ profiles := by
  rw [List.mem_append, mem_newNames hactive]
  tauto

private theorem newNames_requested (hactive : env.active = .ok active) (name : String) :
    env.newNames [.requested name] = if name ∈ active then [] else [name] := by
  have hasked : Profile.names ([Profile.requested name].filter Profile.isRequested) = [name] := rfl
  rw [newNames, hasked, activeOrNone_eq hactive]
  by_cases hname : name ∈ active <;> simp [hname]

private theorem notMem_newNames {name : String} (h : some name ∉ profileNames profiles) :
    name ∉ env.newNames profiles := by
  intro hname
  have hasked := Profile.mem_names_requested.mp (List.mem_filter.mp hname).1
  exact h (List.mem_map_of_mem hasked)

/-- A profile that was asked for joins the active ones, unless it is one of them. -/
private theorem announce_requested {name : String} (hactive : env.active = .ok active)
    (h : Run.announce env (.requested name) = .ok after) :
    (name ∈ active ∧ after = env) ∨
      (name ∉ active ∧ after = { env with activeNames := active ++ [name] }) := by
  unfold Run.announce at h
  dsimp only at h
  obtain ⟨known, hknown, h⟩ := Failure.bind_eq_ok_iff.mp h
  obtain rfl := Except.ok.inj (hactive.symm.trans hknown)
  by_cases hname : name ∈ active
  · rw [if_pos (List.contains_iff_mem.mpr hname)] at h
    cases h
    exact .inl ⟨hname, rfl⟩
  · rw [if_neg (by simpa using hname)] at h
    unfold Environment.addActive at h
    obtain ⟨-, -, h⟩ := Failure.bind_eq_ok_iff.mp h
    obtain ⟨known, hknown, h⟩ := Failure.bind_eq_ok_iff.mp h
    obtain rfl := Except.ok.inj (hactive.symm.trans hknown)
    rw [if_neg (by simpa using hname)] at h
    cases h
    exact .inr ⟨hname, rfl⟩

/-- Making one more profile active, which was not among those before. -/
theorem announce_announcing (hactive : env.active = .ok active)
    (hnew : profile.name? ∉ profileNames profiles)
    (h : Run.announce (env.announcing profiles) profile = .ok after) :
    after = env.announcing (profiles ++ [profile]) := by
  cases profile with
  | unscoped =>
    cases h
    exact (announcing_append_of_nil rfl).symm
  | fallback name =>
    cases h
    exact (announcing_append_of_nil rfl).symm
  | requested name =>
    have hnames := newNames_requested hactive name
    rcases announce_requested (active_announcing hactive profiles) h with
      ⟨hname, rfl⟩ | ⟨hname, rfl⟩
    · rw [List.mem_append, or_iff_left (notMem_newNames hnew)] at hname
      rw [if_pos hname] at hnames
      exact (announcing_append_of_nil hnames).symm
    · rw [List.mem_append, or_iff_left (notMem_newNames hnew)] at hname
      rw [if_neg hname] at hnames
      have hsome : env.newNames (profiles ++ [.requested name]) ≠ [] := by
        rw [newNames_append, hnames]
        simp
      rw [announcing_of_ne hsome, newNames_append, hnames, activeOrNone_eq hactive,
        chain_announcing, defaultNames_announcing, List.append_assoc]

end Environment

namespace Run

variable {ctx : LoadContext} {origin env : Environment} {active : List String} {run after : Run}
  {profile : Profile}

/-- After some rounds the profile is taken from the queue, and processing it fails. -/
def StuckAt (ctx : LoadContext) (run : Run) (profile : Profile) (failure : Failure) : Prop :=
  ∃ reached queue after, ReflTransGen (Round ctx) run reached ∧
    reached.queue.next = (some profile, queue) ∧
    ({ reached with queue } : Run).process ctx profile = (after, some failure)

/-- Looking for the documents of a profile leaves the environment as it is. -/
theorem env_process (ctx : LoadContext) (h : announce run.env profile = .ok env) :
    (run.process ctx profile).1.env = env := by
  unfold process
  rw [h]
  exact (steady_sweep { run with env } ctx .positive profile).1

/-- The profiles that are done are active after some rounds, and nothing else has changed. -/
theorem env_rounds (hactive : origin.active = .ok active)
    (hrounds : ReflTransGen (Round ctx) run after)
    (henv : run.env = origin.announcing run.queue.processed) :
    after.env = origin.announcing after.queue.processed := by
  induction hrounds with
  | refl => exact henv
  | @tail reached _ _ hround ih =>
    cases hround with
    | @mk queue profile processed hnext hprocess =>
      obtain ⟨hnew, hdone⟩ := processed_round hnext hprocess
      rcases process_cases { reached with queue } ctx profile with
        ⟨failure, -, hfailure⟩ | ⟨env, hannounce, -⟩
      · cases hprocess.symm.trans hfailure
      · have hafter := env_process ctx hannounce
        rw [hprocess] at hafter
        rw [hdone, markProcessed, hafter]
        exact Environment.announce_announcing hactive hnew (ih ▸ hannounce)

/-- The same holds when the loop is over. If it failed, the profile that was being processed may
be active, too. -/
theorem env_loop {progress : Progress} (hactive : origin.active = .ok active)
    (hloop : Loop ctx run progress) (henv : run.env = origin.announcing run.queue.processed) :
    ∃ current : Option Profile,
      (∀ p ∈ current, ∃ failure, progress.2 = some failure ∧ run.StuckAt ctx p failure) ∧
      progress.1.env =
        origin.announcing (progress.1.queue.processed ++ current.toList) := by
  cases hloop with
  | ends hrounds hnext =>
    refine ⟨none, by simp, ?_⟩
    rw [Option.toList_none, List.append_nil, ProfileQueue.processed_next_none hnext]
    exact env_rounds hactive hrounds henv
  | @fails reached after queue profile failure hrounds hnext hprocess =>
    have hreached := env_rounds hactive hrounds henv
    obtain ⟨-, hnew, hprocessed, -⟩ := ProfileQueue.next_some hnext
    have hafter := processed_process { reached with queue } ctx profile
    rw [hprocess] at hafter
    rw [hafter.trans hprocessed]
    rcases process_cases { reached with queue } ctx profile with
      ⟨failure, -, hfailure⟩ | ⟨env, hannounce, -⟩
    · cases hprocess.symm.trans hfailure
      exact ⟨none, by simp, by simpa using hreached⟩
    · refine ⟨some profile, fun p hp => ?_, ?_⟩
      · cases hp
        exact ⟨failure, rfl, reached, queue, after, hrounds, hnext, hprocess⟩
      · have henv := env_process ctx hannounce
        rw [hprocess] at henv
        rw [henv]
        refine Environment.announce_announcing hactive ?_ (hreached ▸ hannounce)
        rw [← Profile.isIn_iff, hnew]
        simp

end Run

namespace Loader

/-- The profile is taken from the queue of a load, and processing it fails. -/
def StuckAt (loader : Loader) (store : Store) (env : Environment) (profile : Profile)
    (failure : Failure) : Prop :=
  ∃ locations names queue events,
    loader.begin (hide env) = .ok ((locations, names), queue, events) ∧
    (Run.start (hide env) queue events).StuckAt
      ⟨{ locations, names, registry := loader.registry }, store⟩ profile failure

/-- When the run of a load is over, the profiles that are done are active, and possibly the one
that was being processed when the load failed. Nothing else has changed. -/
theorem env_lastRun (loader : Loader) (store : Store) (env : Environment) :
    ∃ current : Option Profile,
      (∀ p ∈ current, ∃ failure, loader.interruption store env = some failure ∧
        loader.StuckAt store env p failure) ∧
      (loader.lastRun store env).env = (hide env).announcing
        ((loader.lastRun store env).queue.processed ++ current.toList) := by
  rw [← fst_progress, interruption]
  have hphases := phases_progress loader store env
  generalize loader.progress store env = progress at hphases ⊢
  have hbegun {queue : ProfileQueue} {events : List Event}
      (hstart : ProfileQueue.start (hide env) = .ok (queue, events)) :
      (Run.start (hide env) queue events).env =
        (hide env).announcing (Run.start (hide env) queue events).queue.processed := by
    have hprocessed := (ProfileQueue.start_ok hstart).1
    simp [Run.start, hprocessed]
  cases hphases with
  | unbegun => exact ⟨none, by simp, rfl⟩
  | stuck hbegin hloop =>
    have hstart := (begin_ok hbegin).2
    obtain ⟨active, hactive, -⟩ := ProfileQueue.start_active hstart
    obtain ⟨current, hstuck, henv⟩ := Run.env_loop hactive hloop (hbegun hstart)
    refine ⟨current, fun p hp => ?_, henv⟩
    obtain ⟨failure, hfailure, hstuck⟩ := hstuck p hp
    exact ⟨failure, hfailure, _, _, _, _, hbegin, hstuck⟩
  | @drained locations names _ _ hbegin hloop =>
    have hstart := (begin_ok hbegin).2
    obtain ⟨active, hactive, -⟩ := ProfileQueue.start_active hstart
    obtain ⟨current, hstuck, hcurrent⟩ := Run.env_loop hactive hloop (hbegun hstart)
    obtain ⟨henv, hprocessed⟩ := Run.steady_sweep (loader.drained store env)
      ⟨{ locations, names, registry := loader.registry }, store⟩ .negative .unscoped
    -- The loop has ended, so no profile was being processed.
    refine ⟨current, fun p hp => ?_, by rw [henv, hprocessed, hcurrent]⟩
    obtain ⟨failure, hfailure, -⟩ := hstuck p hp
    cases hfailure

end Loader

end LayeredConfig
