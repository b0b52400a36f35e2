import LayeredConfig.Load
import LayeredConfig.Properties

/-!
# A load ends

The loop of a load takes one profile after the other from the queue, and every profile may put
others there. Cut off after a number of looks at the queue, the loop may have no answer. It has
one as soon as the looks exceed the names that can be known to it: those that wait when it
begins and those that some file of the store can ask for. So documents may activate and include
each other in any way, and no load goes on for ever.

A loop that ends without a failure is also described round by round; what holds of a whole load
is proved along that description.

## Main definitions

* `Run.drainWithin`, `Loader.loadWithin`: the loop and the load, cut off.
* `Loader.roundLimit`: a number of rounds that a load does not exceed.
* `Run.Drains`: the rounds of a loop that does not fail.
* `Loader.Course`: the parts of a load that succeeds.

## Main results

* `Run.drainWithin_eq_drain`: with enough looks, the loop that is cut off is the loop.
* `Loader.exists_course`: a load that succeeds has a course.
* `Loader.load_ends`: every load ends, and no profile is processed twice.
-/

namespace LayeredConfig

theorem ProfileQueue.processed_next_none {queue rest : ProfileQueue}
    (h : queue.next = (none, rest)) : rest.processed = queue.processed := by
  unfold ProfileQueue.next at h
  split at h <;> cases h
  rfl

namespace Run

variable {ctx : LoadContext} {names : List (Option String)} {run last : Run}

/-! ### The loop, cut off -/

/-- Processes the profiles of the queue, but gives up when the queue was looked at the given
number of times. -/
def drainWithin (ctx : LoadContext) : Nat → Run → Option Progress
  | 0, _ => none
  | looks + 1, run =>
    match run.queue.next with
    | (none, queue) => some ({ run with queue }, none)
    | (some profile, queue) =>
      match ({ run with queue } : Run).process ctx profile with
      | (after, some failure) => some (after, some failure)
      | (after, none) => drainWithin ctx looks (after.markProcessed profile)

section

variable {origin after : Run} {queue : ProfileQueue} {profile : Profile}
  (h : run.Coherent ctx (origin.knownNames ctx))

theorem drain_of_next_none (hnext : run.queue.next = (none, queue)) :
    drain ctx origin run h = ({ run with queue }, none) := by
  rw [drain]
  split <;> simp_all

theorem drain_of_failure {failure : Failure}
    (hnext : run.queue.next = (some profile, queue))
    (hprocess : ({ run with queue } : Run).process ctx profile = (after, some failure)) :
    drain ctx origin run h = (after, some failure) := by
  rw [drain]
  split
  · simp_all
  · next hnext' =>
    obtain ⟨rfl, rfl⟩ : _ = profile ∧ _ = queue := by simpa [hnext] using hnext'.symm
    split <;> simp_all

theorem drain_of_process (hnext : run.queue.next = (some profile, queue))
    (hprocess : ({ run with queue } : Run).process ctx profile = (after, none)) :
    drain ctx origin run h =
      drain ctx origin (after.markProcessed profile) (h.afterRound hnext hprocess).1 := by
  conv => lhs; rw [drain]
  split
  · simp_all
  · next hnext' =>
    obtain ⟨rfl, rfl⟩ : _ = profile ∧ _ = queue := by simpa [hnext] using hnext'.symm
    split
    · simp_all
    · next hprocess' =>
      obtain rfl : _ = after := by simpa [hprocess] using hprocess'.symm
      rfl

/-- The loop that may look at the queue more often than there are names left is the loop. -/
theorem drainWithin_eq_drain {looks : Nat}
    (hlooks : run.remaining (origin.knownNames ctx) < looks) :
    drainWithin ctx looks run = some (drain ctx origin run h) := by
  induction looks generalizing run with
  | zero => omega
  | succ looks ih =>
    rw [drainWithin]
    split
    · next queue hnext => rw [drain_of_next_none h hnext]
    · next profile queue hnext =>
      split
      · next failure hprocess => rw [drain_of_failure h hnext hprocess]
      · next after hprocess =>
        -- A round takes one of the names away, and a look goes with it.
        obtain ⟨hafter, hlt⟩ := h.afterRound hnext hprocess
        rw [drain_of_process h hnext hprocess, ih hafter (by omega)]

end

theorem remaining_le_length (names : List (Option String)) (run : Run) :
    run.remaining names ≤ names.length :=
  List.length_filter_le _ _

/-! ### The rounds of a loop -/

/-- The queue of a run empties without a failure, and `last` is the run with the empty queue. -/
inductive Drains (ctx : LoadContext) : Run → Run → Prop
  | done {run : Run} {queue : ProfileQueue} (hnext : run.queue.next = (none, queue)) :
      Drains ctx run { run with queue }
  | round {run after last : Run} {queue : ProfileQueue} {profile : Profile}
      (hnext : run.queue.next = (some profile, queue))
      (hprocess : ({ run with queue } : Run).process ctx profile = (after, none))
      (hrest : Drains ctx (after.markProcessed profile) last) : Drains ctx run last

private theorem drains_of_drainWithin {looks : Nat}
    (h : drainWithin ctx looks run = some (last, none)) : Drains ctx run last := by
  induction looks generalizing run with
  | zero => cases h
  | succ looks ih =>
    rw [drainWithin] at h
    split at h
    · next queue hnext =>
      cases h
      exact .done hnext
    · next profile queue hnext =>
      split at h
      · cases h
      · next after hprocess => exact .round hnext hprocess (ih h)

/-- A loop that does not fail goes through its rounds to the end. -/
theorem drains_of_drain {origin : Run} (h : run.Coherent ctx (origin.knownNames ctx))
    (hdrain : drain ctx origin run h = (last, none)) : Drains ctx run last := by
  have hwithin := drainWithin_eq_drain h (Nat.lt_succ_self _)
  rw [hdrain] at hwithin
  exact drains_of_drainWithin hwithin

/-! ### The profiles that are done -/

/-- Every run is coherent for some names. -/
theorem exists_coherent (ctx : LoadContext) (run : Run) : ∃ names, run.Coherent ctx names := by
  let asked := run.memo.entries.flatMap fun entry => entry.2.flatMap Document.requests
  refine ⟨profileNames (ctx.plan.registry.requestable ctx.store.contents run.env.resolve ++
    (run.queue.pending ++ asked)), ?_, ?_, ?_⟩
  · intro p hp
    exact List.mem_map_of_mem (List.mem_append_left _ hp)
  · intro p hp
    exact List.mem_map_of_mem (List.mem_append_right _ (List.mem_append_left _ hp))
  · intro entry hentry document hdocument p hp
    refine List.mem_map_of_mem (List.mem_append_right _ (List.mem_append_right _ ?_))
    exact List.mem_flatMap.mpr ⟨entry, hentry, List.mem_flatMap.mpr ⟨document, hdocument, hp⟩⟩

/-- A visit keeps the environment and the profiles that are done. -/
theorem steady_visit (run : Run) (ctx : LoadContext) (pass : Pass) (profile : Profile)
    (probe : Probe) : Steady run (run.visit ctx pass profile probe).1 := by
  obtain ⟨names, h⟩ := exists_coherent ctx run
  exact (visit_keeps pass profile probe h).2

/-- A sweep keeps the environment and the profiles that are done. -/
theorem steady_sweep (run : Run) (ctx : LoadContext) (pass : Pass) (profile : Profile) :
    Steady run (run.sweep ctx pass profile).1 := by
  obtain ⟨names, h⟩ := exists_coherent ctx run
  exact (visitAll_keeps pass profile _ h).2

theorem processed_process (run : Run) (ctx : LoadContext) (profile : Profile) :
    (run.process ctx profile).1.queue.processed = run.queue.processed := by
  obtain ⟨names, h⟩ := exists_coherent ctx run
  exact (coherent_process profile h).2.2

/-- A round adds its profile, which was not done before, to the profiles that are done. -/
theorem processed_round {after : Run} {queue : ProfileQueue} {profile : Profile}
    (hnext : run.queue.next = (some profile, queue))
    (hprocess : ({ run with queue } : Run).process ctx profile = (after, none)) :
    profile.name? ∉ profileNames run.queue.processed ∧
      (after.markProcessed profile).queue.processed = run.queue.processed ++ [profile] := by
  obtain ⟨-, hnew, hprocessed, -⟩ := ProfileQueue.next_some hnext
  have hafter : after.queue.processed = run.queue.processed := by
    have := processed_process { run with queue } ctx profile
    rw [hprocess] at this
    exact this.trans hprocessed
  refine ⟨by rw [← Profile.isIn_iff, hnew]; simp, ?_⟩
  simp only [markProcessed]
  rw [ProfileQueue.processed_markProcessed (by rw [hafter]; exact hnew), hafter]

/-- The rounds of a loop add profiles to those that are done, each name once. -/
theorem Drains.processed (h : Drains ctx run last) :
    ∃ more, last.queue.processed = run.queue.processed ++ more ∧
      ((profileNames run.queue.processed).Nodup →
        (profileNames last.queue.processed).Nodup) := by
  induction h with
  | done hnext => exact ⟨[], by simp [ProfileQueue.processed_next_none hnext]⟩
  | round hnext hprocess hrest ih =>
    obtain ⟨more, hmore, hnodup⟩ := ih
    obtain ⟨hnew, hdone⟩ := processed_round hnext hprocess
    rw [hdone] at hmore hnodup
    refine ⟨_ :: more, by rw [hmore, List.append_assoc]; rfl, fun h => hnodup ?_⟩
    rw [profileNames, List.map_append, List.nodup_append]
    refine ⟨h, by simp, ?_⟩
    rintro name hname other hother rfl
    exact hnew (List.mem_singleton.mp hother ▸ hname)

/-- The next profile of the queue is the next one that is done. -/
theorem Drains.processed_of_next {queue : ProfileQueue} {profile : Profile}
    (h : Drains ctx run last) (hnext : run.queue.next = (some profile, queue)) :
    ∃ more, last.queue.processed = run.queue.processed ++ profile :: more := by
  cases h with
  | done hnone => cases hnext.symm.trans hnone
  | round hsome hprocess hrest =>
    obtain ⟨more, hmore, -⟩ := hrest.processed
    rw [(processed_round hsome hprocess).2, List.append_assoc] at hmore
    cases hnext.symm.trans hsome
    exact ⟨more, hmore⟩

end Run

/-! ### The beginning of a load -/

namespace ProfileQueue

private theorem activate_unscoped (others profiles : List Profile) :
    ((activate { pending := .unscoped :: others } profiles).1.processed = []) ∧
      ∃ rest, (activate { pending := .unscoped :: others } profiles).1.pending =
        .unscoped :: rest := by
  unfold activate
  split
  · exact ⟨rfl, others, rfl⟩
  · exact ⟨rfl, (others ++ profiles).filter fun p => !p.isFallback, rfl⟩

/-- A load begins with nothing done and with the unscoped profile at the front. -/
theorem start_ok {env : Environment} {queue : ProfileQueue} {events : List Event}
    (h : start env = .ok (queue, events)) :
    queue.processed = [] ∧ ∃ rest, queue.pending = .unscoped :: rest := by
  unfold start at h
  obtain ⟨activated, -, h⟩ := Failure.bind_eq_ok_iff.mp h
  obtain ⟨included, -, h⟩ := Failure.bind_eq_ok_iff.mp h
  obtain ⟨active, -, h⟩ := Failure.bind_eq_ok_iff.mp h
  obtain ⟨hprocessed, rest, hpending⟩ := activate_unscoped
    (((active.map Profile.requested).filter fun p =>
      !p.isIn activated && !p.isIn included) ++ included) activated
  dsimp only at h
  split at h
  · obtain ⟨defaults, -, h⟩ := Failure.bind_eq_ok_iff.mp h
    cases h
    exact ⟨hprocessed, rest ++ defaults.map .fallback, congrArg (· ++ _) hpending⟩
  · cases h
    exact ⟨hprocessed, rest, hpending⟩

end ProfileQueue

namespace Loader

variable {loader : Loader} {store : Store} {env : Environment} {report : Report}

/-- What a load with the given report works with. -/
def context (loader : Loader) (store : Store) (report : Report) : LoadContext :=
  ⟨{ locations := report.locations, names := report.names, registry := loader.registry }, store⟩

/-- A load begins with an empty memo. -/
theorem memo_start (env : Environment) (queue : ProfileQueue) (events : List Event) :
    (Run.start (hide env) queue events).memo = {} := rfl

/-- The run of a load as far as it gets. -/
def lastRun (loader : Loader) (store : Store) (env : Environment) : Run :=
  match loader.begin (hide env) with
  | .error _ => { env := hide env, queue := {} }
  | .ok ((locations, names), queue, events) =>
    ((Run.start (hide env) queue events).complete
      ⟨{ locations, names, registry := loader.registry }, store⟩
      (memo_start env queue events)).1

/-- The layers of a load as far as it gets. -/
def layers (loader : Loader) (store : Store) (env : Environment) : Layers :=
  .ofPickups (loader.lastRun store env).pickups

/-- The course of a load that succeeds. -/
structure Course (loader : Loader) (store : Store) (env : Environment) (report : Report) where
  /-- The queue with which it begins. -/
  queue : ProfileQueue
  events : List Event
  /-- The run with which the queue is empty. -/
  drained : Run
  begins : loader.begin (hide env) = .ok ((report.locations, report.names), queue, events)
  drains : Run.Drains (loader.context store report) (Run.start (hide env) queue events) drained
  sweeps : drained.sweep (loader.context store report) .negative .unscoped =
    (loader.lastRun store env, none)
  processed_eq : report.processed = (loader.lastRun store env).queue.processed
  added_eq : report.added = (loader.layers store env).collected.map Source.name

private theorem finish_ok {plan : Plan} {defaults : Option Source} {run : Run}
    (h : (finish plan defaults run).result = .ok report) :
    report.locations = plan.locations ∧ report.names = plan.names ∧
      report.processed = run.queue.processed ∧
        report.added = (Layers.ofPickups run.pickups).collected.map Source.name := by
  unfold finish at h
  dsimp only at h
  split at h
  · cases h
  · cases h
    exact ⟨rfl, rfl, rfl, rfl⟩

/-- A load that succeeds has a course. -/
theorem exists_course (h : (loader.load store env).result = .ok report) :
    Nonempty (Course loader store env report) := by
  unfold load at h
  dsimp only at h
  split at h
  · cases h
  · next locations names queue events hbegin =>
    have hlast : loader.lastRun store env = ((Run.start (hide env) queue events).complete
        ⟨{ locations, names, registry := loader.registry }, store⟩ rfl).1 := by
      simp only [lastRun, hbegin]
    revert h hlast
    unfold Run.complete
    generalize hdrain : Run.drain _ _ _ _ = drained
    intro h hlast
    obtain ⟨drained, _ | failure⟩ := drained
    · rw [Run.sweepRest] at h hlast
      generalize hsweep : drained.sweep _ Pass.negative Profile.unscoped = last at h hlast
      obtain ⟨last, _ | failure⟩ := last
      · obtain ⟨rfl, rfl, hprocessed, hadded⟩ := finish_ok h
        subst hlast
        exact ⟨⟨queue, events, drained, hbegin, Run.drains_of_drain _ hdrain, hsweep,
          hprocessed, hadded⟩⟩
      · cases h
    · cases h

/-! ### Every load ends -/

/-- Loads like `load`, but gives up when the queue was looked at the given number of times. -/
def loadWithin (looks : Nat) (loader : Loader) (store : Store) (env : Environment) :
    Option Outcome :=
  let defaults := env.chain.get? defaultPropertiesName
  let seen := hide env
  match loader.begin seen with
  | .error failure =>
    some { result := .error failure, env := restore defaults seen, events := #[] }
  | .ok ((locations, names), queue, events) =>
    let plan : Plan := { locations, names, registry := loader.registry }
    ((Run.start seen queue events).drainWithin ⟨plan, store⟩ looks).map fun progress =>
      conclude plan defaults (Run.sweepRest ⟨plan, store⟩ progress)

/-- How many names a load can know: those of the queue with which it begins, and those that
some file of the store can ask for. -/
def roundLimit (loader : Loader) (store : Store) (env : Environment) : Nat :=
  match loader.begin (hide env) with
  | .error _ => 0
  | .ok ((locations, names), queue, events) =>
    ((Run.start (hide env) queue events).knownNames
      ⟨{ locations, names, registry := loader.registry }, store⟩).length

private theorem loadWithin_eq_load {looks : Nat} (hlooks : loader.roundLimit store env < looks) :
    loader.loadWithin looks store env = some (loader.load store env) := by
  unfold roundLimit at hlooks
  unfold loadWithin load
  cases hbegin : loader.begin (hide env) with
  | error failure => simp only [hbegin]
  | ok begun =>
    obtain ⟨⟨locations, names⟩, queue, events⟩ := begun
    simp only [hbegin] at hlooks ⊢
    let ctx : LoadContext := ⟨{ locations, names, registry := loader.registry }, store⟩
    let begun := Run.start (hide env) queue events
    have hcoherent : begun.Coherent ctx (begun.knownNames ctx) := Run.coherent_of_memo_eq rfl
    have hremaining := Run.remaining_le_length (begun.knownNames ctx) begun
    rw [Run.drainWithin_eq_drain hcoherent (Nat.lt_of_le_of_lt hremaining hlooks)]
    rfl

namespace Course

theorem queue_start (course : Course loader store env report) :
    ProfileQueue.start (hide env) = .ok (course.queue, course.events) := by
  have hbegins := course.begins
  unfold begin at hbegins
  obtain ⟨searched, -, hbegins⟩ := Failure.bind_eq_ok_iff.mp hbegins
  obtain ⟨started, hstart, hbegins⟩ := Failure.bind_eq_ok_iff.mp hbegins
  cases hbegins
  exact hstart

/-- The final sweep counts no profile as done. -/
theorem processed_eq_drained (course : Course loader store env report) :
    report.processed = course.drained.queue.processed := by
  have hsteady := Run.steady_sweep course.drained (loader.context store report) .negative .unscoped
  rw [course.sweeps] at hsteady
  exact course.processed_eq.trans hsteady.2

/-- No profile is processed twice. -/
theorem nodup_processed (course : Course loader store env report) :
    (profileNames report.processed).Nodup := by
  obtain ⟨hstart, -⟩ := ProfileQueue.start_ok course.queue_start
  obtain ⟨-, -, hnodup⟩ := course.drains.processed
  rw [course.processed_eq_drained]
  exact hnodup (by simp [Run.start, hstart])

/-- The unscoped profile is processed first. -/
theorem exists_processed_eq (course : Course loader store env report) :
    ∃ more, report.processed = .unscoped :: more := by
  obtain ⟨hstart, rest, hrest⟩ := ProfileQueue.start_ok course.queue_start
  have hnext : course.queue.next = (some .unscoped, { course.queue with pending := rest }) := by
    simp [ProfileQueue.next, hstart, hrest, Profile.isIn]
  rw [course.processed_eq_drained]
  obtain ⟨more, hmore⟩ := course.drains.processed_of_next hnext
  exact ⟨more, by rw [hmore]; simp [Run.start, hstart]⟩

end Course

/-- Every load ends: when its loop may look at the queue more often than there are names that
the load can know, it is never cut off. If it succeeds, the unscoped profile was processed first
and no profile twice. -/
theorem load_ends (loader : Loader) (store : Store) (env : Environment) :
    (∀ looks, loader.roundLimit store env < looks →
      loader.loadWithin looks store env = some (loader.load store env)) ∧
    ∀ report, (loader.load store env).result = .ok report →
      report.processed.head? = some .unscoped ∧ (profileNames report.processed).Nodup := by
  refine ⟨fun looks hlooks => loadWithin_eq_load hlooks, fun report h => ?_⟩
  obtain ⟨course⟩ := exists_course h
  obtain ⟨more, hmore⟩ := course.exists_processed_eq
  exact ⟨by rw [hmore]; rfl, course.nodup_processed⟩

/-- Profiles that include each other are processed once each. -/
example :
    let loader : Loader :=
      { search := { locations := some "file:/" }, registry := ⟨[.properties]⟩ }
    let store := Store.ofTexts [("file:/application.properties", "profiles.active=x"),
      ("file:/application-x.properties", "profiles.include=y"),
      ("file:/application-y.properties", "profiles.include=x")]
    (loader.load store {}).result.toOption.map Report.processed =
      some [.unscoped, .requested "x", .requested "y"] := by
  decide +kernel

end Loader

end LayeredConfig
