import LayeredConfig.Proofs.Chain
import LayeredConfig.Proofs.Load.Files

/-!
# The phases of a load

A load begins with the search path and the queue, empties the queue, and sweeps the search path
once more for the unscoped profile. A failure in any of these phases ends its run. Only a run
that is not cut short is finished: its sources are put into the chain, and its profiles become
active. Either way the default properties come back.

## Main definitions

* `Loader.progress`: how far the run of a load gets, and the failure that cuts it short.
* `Loader.drained`: the run of a load when its queue has been emptied.
* `Loader.Phases`: the ways in which the run of a load can go.

## Main results

* `Loader.phases_progress`: the run of a load goes in one of these ways.
* `Loader.load_of_cutShort`, `Loader.load_of_complete`: what becomes of a load.
* `Loader.sweep_drained`: a load that succeeds goes through all phases.
* `Loader.restore_hide`: the default properties come back.
-/

namespace LayeredConfig

namespace Loader

variable {loader : Loader} {store : Store} {env : Environment}

/-- How far the run of a load gets, and the failure that cuts it short, if any. -/
def progress (loader : Loader) (store : Store) (env : Environment) : Progress :=
  match loader.begin (hide env) with
  | .error failure => ({ env := hide env, queue := {} }, some failure)
  | .ok ((locations, names), queue, events) =>
    (Run.start (hide env) queue events).complete
      ⟨{ locations, names, registry := loader.registry }, store⟩ (memo_start env queue events)

theorem fst_progress (loader : Loader) (store : Store) (env : Environment) :
    (loader.progress store env).1 = loader.lastRun store env := by
  unfold progress lastRun
  cases loader.begin (hide env) <;> rfl

/-- The run of a load when its queue has been emptied, as far as it gets. -/
def drained (loader : Loader) (store : Store) (env : Environment) : Run :=
  match loader.begin (hide env) with
  | .error _ => { env := hide env, queue := {} }
  | .ok ((locations, names), queue, events) =>
    let ctx : LoadContext := ⟨{ locations, names, registry := loader.registry }, store⟩
    let begun := Run.start (hide env) queue events
    (begun.drain ctx begun (Run.coherent_of_memo_eq rfl)).1

/-- The failure that cuts the run of a load short. -/
def interruption (loader : Loader) (store : Store) (env : Environment) : Option Failure :=
  (loader.progress store env).2

theorem progress_eq (loader : Loader) (store : Store) (env : Environment) :
    loader.progress store env = (loader.lastRun store env, loader.interruption store env) :=
  Prod.ext (fst_progress loader store env) rfl

/-! ### The outcome of a load -/

theorem begin_ok {locations names : List String} {queue : ProfileQueue} {events : List Event}
    (h : loader.begin env = .ok ((locations, names), queue, events)) :
    loader.searched env = .ok (locations, names) ∧
      ProfileQueue.start env = .ok (queue, events) := by
  unfold begin at h
  obtain ⟨searched, hsearched, h⟩ := Failure.bind_eq_ok_iff.mp h
  obtain ⟨started, hstarted, h⟩ := Failure.bind_eq_ok_iff.mp h
  cases h
  exact ⟨hsearched, hstarted⟩

private theorem load_eq_conclude {locations names : List String} {queue : ProfileQueue}
    {events : List Event}
    (hbegin : loader.begin (hide env) = .ok ((locations, names), queue, events)) :
    loader.load store env = conclude { locations, names, registry := loader.registry }
      (env.chain.get? defaultPropertiesName) (loader.progress store env) := by
  simp only [load, progress, hbegin]

/-- A load whose run is cut short fails, and puts nothing into the chain. -/
theorem load_of_cutShort {failure : Failure}
    (h : loader.interruption store env = some failure) :
    loader.load store env =
      { result := .error failure
        env := restore (env.chain.get? defaultPropertiesName) (loader.lastRun store env).env
        events := (loader.lastRun store env).events } := by
  cases hbegin : loader.begin (hide env) with
  | error first =>
    obtain rfl : first = failure := by simpa [interruption, progress, hbegin] using h
    simp [load, lastRun, hbegin]
  | ok begun =>
    rw [load_eq_conclude hbegin, progress_eq, h, conclude]

/-- A load whose run is not cut short is finished. -/
theorem load_of_complete (h : loader.interruption store env = none) :
    ∃ locations names, loader.searched (hide env) = .ok (locations, names) ∧
      loader.load store env = finish { locations, names, registry := loader.registry }
        (env.chain.get? defaultPropertiesName) (loader.lastRun store env) := by
  cases hbegin : loader.begin (hide env) with
  | error first => simp [interruption, progress, hbegin] at h
  | ok begun =>
    obtain ⟨⟨locations, names⟩, queue, events⟩ := begun
    refine ⟨locations, names, (begin_ok hbegin).1, ?_⟩
    rw [load_eq_conclude hbegin, progress_eq, h, conclude]

/-- A load ends with the events of its run, whatever becomes of it. -/
theorem events_load (loader : Loader) (store : Store) (env : Environment) :
    (loader.load store env).events = (loader.lastRun store env).events := by
  cases h : loader.interruption store env with
  | some failure => rw [load_of_cutShort h]
  | none =>
    obtain ⟨locations, names, -, hload⟩ := load_of_complete h
    rw [hload, finish]
    dsimp only
    split <;> rfl

/-! ### The ways in which a run can go -/

/-- The ways in which the run of a load can go. -/
inductive Phases (loader : Loader) (store : Store) (env : Environment) : Progress → Prop
  /-- The search path or the queue cannot be had. -/
  | unbegun {failure : Failure} (hbegin : loader.begin (hide env) = .error failure) :
      Phases loader store env ({ env := hide env, queue := {} }, some failure)
  /-- The queue cannot be emptied. -/
  | stuck {locations names : List String} {queue : ProfileQueue} {events : List Event} {run : Run}
      {failure : Failure}
      (hbegin : loader.begin (hide env) = .ok ((locations, names), queue, events))
      (hloop : Run.Loop ⟨{ locations, names, registry := loader.registry }, store⟩
        (Run.start (hide env) queue events) (run, some failure)) :
      Phases loader store env (run, some failure)
  /-- The queue is emptied, and the last sweep begins. -/
  | drained {locations names : List String} {queue : ProfileQueue} {events : List Event}
      (hbegin : loader.begin (hide env) = .ok ((locations, names), queue, events))
      (hloop : Run.Loop ⟨{ locations, names, registry := loader.registry }, store⟩
        (Run.start (hide env) queue events) (loader.drained store env, none)) :
      Phases loader store env ((loader.drained store env).sweep
        ⟨{ locations, names, registry := loader.registry }, store⟩ .negative .unscoped)

/-- The run of a load goes in one of these ways. -/
theorem phases_progress (loader : Loader) (store : Store) (env : Environment) :
    Phases loader store env (loader.progress store env) := by
  cases hbegin : loader.begin (hide env) with
  | error failure =>
    simp only [progress, hbegin]
    exact .unbegun hbegin
  | ok begun =>
    obtain ⟨⟨locations, names⟩, queue, events⟩ := begun
    let ctx : LoadContext := ⟨{ locations, names, registry := loader.registry }, store⟩
    let begun := Run.start (hide env) queue events
    have hcoherent : begun.Coherent ctx (begun.knownNames ctx) := Run.coherent_of_memo_eq rfl
    have hloop := Run.loop_drain hcoherent
    have hdrained : loader.drained store env = (begun.drain ctx begun hcoherent).1 := by
      simp only [drained, hbegin, begun, ctx]
    have hprogress : loader.progress store env =
        Run.sweepRest ctx (begun.drain ctx begun hcoherent) := by
      simp only [progress, hbegin, Run.complete, begun, ctx]
    rw [hprogress]
    generalize begun.drain ctx begun hcoherent = progress at hloop hdrained ⊢
    obtain ⟨run, _ | failure⟩ := progress
    · obtain rfl : loader.drained store env = run := hdrained
      exact .drained hbegin hloop
    · exact .stuck hbegin hloop

/-- The run of a load that succeeds is not cut short. -/
theorem interruption_eq_none {report : Report} (h : (loader.load store env).result = .ok report) :
    loader.interruption store env = none := by
  by_contra hsome
  obtain ⟨failure, hfailure⟩ := Option.ne_none_iff_exists'.mp hsome
  rw [load_of_cutShort hfailure] at h
  cases h

/-- A load that succeeds empties the queue, and then makes its last sweep. -/
theorem sweep_drained {report : Report} (h : (loader.load store env).result = .ok report) :
    ∃ queue events, ProfileQueue.start (hide env) = .ok (queue, events) ∧
      Run.Loop (loader.context store report) (Run.start (hide env) queue events)
        (loader.drained store env, none) ∧
      (loader.drained store env).sweep (loader.context store report) .negative .unscoped =
        (loader.lastRun store env, none) ∧
      report.processed = (loader.lastRun store env).queue.processed := by
  obtain ⟨course⟩ := exists_course h
  have hphases := phases_progress loader store env
  have hprogress := progress_eq loader store env
  rw [interruption_eq_none h] at hprogress
  generalize loader.progress store env = progress at hphases hprogress
  cases hphases with
  | unbegun => cases (Prod.mk.inj hprogress).2
  | stuck => cases (Prod.mk.inj hprogress).2
  | drained hbegin hloop =>
    cases hbegin.symm.trans course.begins
    exact ⟨_, _, (begin_ok hbegin).2, hloop, hprogress, course.processed_eq⟩

/-- A load that succeeds empties the queue and makes its last sweep. -/
theorem exists_lastSweep {report : Report} (h : (loader.load store env).result = .ok report) :
    ∃ ctx queue events, ProfileQueue.start (hide env) = .ok (queue, events) ∧
      Run.Loop ctx (Run.start (hide env) queue events) (loader.drained store env, none) ∧
      (loader.drained store env).sweep ctx .negative .unscoped =
        (loader.lastRun store env, none) ∧
      report.processed = (loader.lastRun store env).queue.processed :=
  ⟨_, sweep_drained h⟩

/-- The run of a load has every invariant with which it begins, whether or not it is cut short. -/
theorem lastRun_cases (loader : Loader) (store : Store) (env : Environment) :
    loader.lastRun store env = { env := hide env, queue := {} } ∨
    ∃ locations names queue events,
      loader.begin (hide env) = .ok ((locations, names), queue, events) ∧
      ∀ P, Run.Invariant ⟨{ locations, names, registry := loader.registry }, store⟩ P →
        P [] (Run.start (hide env) queue events) → ∃ busy, P busy (loader.lastRun store env) := by
  rw [← fst_progress]
  have hphases := phases_progress loader store env
  generalize loader.progress store env = progress at hphases ⊢
  cases hphases with
  | unbegun => exact .inl rfl
  | stuck hbegin hloop =>
    exact .inr ⟨_, _, _, _, hbegin, fun P hinvariant hstart => hinvariant.loop hloop hstart⟩
  | drained hbegin hloop =>
    refine .inr ⟨_, _, _, _, hbegin, fun P hinvariant hstart => ?_⟩
    obtain ⟨busy, hdrained⟩ := hinvariant.loop hloop hstart
    exact ⟨busy, hinvariant.walk busy (Run.walk_sweep ..) hdrained⟩

/-- The documents of a load were read from the store. -/
theorem fromFiles_lastRun (loader : Loader) (store : Store) (env : Environment) :
    ∃ plan, (loader.lastRun store env).FromFiles ⟨plan, store⟩ := by
  rcases lastRun_cases loader store env with hlast | ⟨_, _, _, _, -, hkept⟩
  · rw [hlast]
    exact ⟨{ locations := [], names := [], registry := loader.registry },
      Run.fromFiles_start _ {} []⟩
  · obtain ⟨busy, hlast⟩ := hkept _ Run.invariant_fromFiles (Run.fromFiles_start _ _ _)
    exact ⟨_, hlast⟩

/-! ### The default properties come back -/

variable {block : List Source}

@[simp] theorem activeNames_hide : (hide env).activeNames = env.activeNames := by
  unfold hide
  split <;> rfl

@[simp] theorem defaultNames_hide : (hide env).defaultNames = env.defaultNames := by
  unfold hide
  split <;> rfl

theorem distinct_hide (h : env.chain.Distinct) : (hide env).chain.Distinct := by
  unfold hide
  split
  · exact h.replace _
  · exact h

/-- What was hidden comes back into a chain to which a block of other sources was added. -/
theorem restore_hide (h : env.chain.Distinct)
    (hblock : defaultPropertiesName ∉ block.map Source.name) (run : Environment)
    (hrun : run.chain = (hide env).chain) :
    restore (env.chain.get? defaultPropertiesName)
        { run with chain := run.chain.withBlock block } =
      { run with chain := env.chain.withBlock block } := by
  rw [hrun]
  unfold restore hide
  cases hget : env.chain.get? defaultPropertiesName with
  | none => rfl
  | some defaults =>
    have hname := Chain.name_of_get? hget
    have hsame : (defaults.without hiddenKeys).name = defaults.name := rfl
    have hself :
        (env.chain.replace (defaults.without hiddenKeys)).replace defaults = env.chain := by
      rw [Chain.replace_replace hsame, h.replace_eq_self hget]
    -- The block bears other names, so putting the defaults back can be done before it is put in.
    rw [← hname] at hblock
    dsimp only
    rw [Chain.replace_withBlock hblock, hself]

/-- What was hidden comes back into a chain that stayed as it was. -/
theorem restore_hide_nil (h : env.chain.Distinct) (run : Environment)
    (hrun : run.chain = (hide env).chain) :
    restore (env.chain.get? defaultPropertiesName) run = { run with chain := env.chain } := by
  have hnone : defaultPropertiesName ∉ ([] : List Source).map Source.name := by simp
  have hrestore := restore_hide h hnone run hrun
  rwa [Chain.withBlock_nil, Chain.withBlock_nil] at hrestore

/-- A load that cannot begin changes nothing. -/
theorem env_load_of_begin {failure : Failure} (h : env.chain.Distinct)
    (hbegin : loader.begin (hide env) = .error failure) :
    (loader.load store env).env = env := by
  simp only [load, hbegin, restore_hide_nil h (hide env) rfl, activeNames_hide, defaultNames_hide]

end Loader

end LayeredConfig
