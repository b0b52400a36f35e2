import LayeredConfig.Proofs.Load.Active

/-!
# Activation is locked

The first document that activates profiles locks activation for the rest of a load, and drops the
fallbacks that still wait. No fallback comes back after that: what documents activate or include
counts as asked for, even where it bears the name of a fallback. A fallback waits in the first
place only where nothing was named when the load began.

## Main definitions

* `ProfileQueue.Locks`: once activation is locked, no fallback waits.
* `Run.Locked`: the queue locks, and activation was reported as often as it took effect.
* `Loader.Takes`: a profile is taken from the queue of a load.

## Main results

* `Run.invariant_locked`: a run is locked all the way.
* `Loader.takes_of_processed`: a profile that is done was taken from the queue.
* `Loader.activation_locks`: profiles are activated at most once, no fallback is taken after that,
  and no fallback is processed where a profile was named.
-/

namespace LayeredConfig

open Relation (ReflTransGen)

/-- The event reports that profiles were activated. -/
def Event.isActivation : Event → Bool
  | activated _ => true
  | _ => false

namespace ProfileQueue

variable {queue rest : ProfileQueue} {profiles : List Profile} {p : Profile}

/-- Once activation is locked, no fallback waits. -/
def Locks (queue : ProfileQueue) : Prop :=
  queue.isActivated = true → ∀ p ∈ queue.pending, p.isFallback = false

/-- Activation locks, whatever is activated. -/
theorem Locks.activate (h : queue.Locks) (profiles : List Profile) :
    (queue.activate profiles).1.Locks := by
  unfold ProfileQueue.activate
  split
  · exact h
  · split
    · exact h
    · intro _ p hp
      simpa using (List.mem_filter.mp hp).2

@[simp] theorem isActivated_includeFirst :
    (queue.includeFirst profiles).1.isActivated = queue.isActivated := by
  unfold includeFirst
  split <;> rfl

theorem Locks.includeFirst (h : queue.Locks) (hprofiles : ∀ p ∈ profiles, p.isFallback = false) :
    (queue.includeFirst profiles).1.Locks := by
  intro hlocked p hp
  rw [isActivated_includeFirst] at hlocked
  exact (mem_pending_includeFirst hp).elim (h hlocked p) (hprofiles p)

theorem Locks.next (h : queue.Locks) : queue.next.2.Locks := by
  unfold ProfileQueue.next
  split
  · exact fun _ p hp => by cases hp
  · next profile pending heq =>
    have hsub : (profile :: pending).Sublist queue.pending := heq ▸ List.dropWhile_sublist _
    exact fun hlocked p hp => h hlocked p (hsub.subset (List.mem_cons_of_mem _ hp))

@[simp] theorem isActivated_next : queue.next.2.isActivated = queue.isActivated := by
  unfold next
  split <;> rfl

@[simp] theorem isActivated_markProcessed :
    (queue.markProcessed p).isActivated = queue.isActivated := by
  unfold markProcessed
  split <;> rfl

theorem Locks.markProcessed (h : queue.Locks) (p : Profile) : (queue.markProcessed p).Locks := by
  intro hlocked
  rw [pending_markProcessed]
  exact h (isActivated_markProcessed ▸ hlocked)

/-- Activation is reported iff it takes effect, which locks it. -/
theorem countP_activate (queue : ProfileQueue) (profiles : List Profile) :
    queue.isActivated.toNat + (queue.activate profiles).2.countP Event.isActivation =
      (queue.activate profiles).1.isActivated.toNat := by
  unfold activate
  split
  · rfl
  · split
    · rfl
    · next hopen => simp [hopen, Event.isActivation]

/-- Including reports no activation. -/
theorem countP_includeFirst (queue : ProfileQueue) (profiles : List Profile) :
    (queue.includeFirst profiles).2.countP Event.isActivation = 0 := by
  unfold includeFirst
  split <;> rfl

/-- A load begins with a queue that locks. A fallback that waits there shows that nothing was
activated. -/
theorem start_locks {env : Environment} {events : List Event}
    (h : start env = .ok (queue, events)) :
    queue.Locks ∧ events.countP Event.isActivation = queue.isActivated.toNat := by
  have hfallback (p : Profile) (hp : p ∈ queue.pending) := start_fallback h hp
  obtain ⟨active, activated, included, fallbacks, -, hactivated, -, rfl, rfl, -⟩ := start_cases h
  constructor
  · intro hlocked p hp
    by_contra hp'
    obtain ⟨-, hnone, -⟩ := hfallback p hp (by simpa using hp')
    cases hactivated.symm.trans hnone
    cases hlocked
  · have hcount := countP_activate
      { pending := .unscoped :: ((active.map Profile.requested).filter fun p =>
          !p.isIn activated && !p.isIn included) ++ included } activated
    rwa [Bool.toNat_false, Nat.zero_add] at hcount

end ProfileQueue

namespace Run

variable {ctx : LoadContext} {run : Run} {document : Document}

/-- The queue locks, and activation was reported as often as it took effect. -/
structure Locked (run : Run) : Prop where
  locks : run.queue.Locks
  reported : run.events.toList.countP Event.isActivation = run.queue.isActivated.toNat

theorem Locked.follow (hd : document.IsRead ctx) (h : run.Locked) :
    (run.follow document).Locked where
  locks := by
    refine (h.locks.activate _).includeFirst fun p hp => ?_
    exact ProfileQueue.isFallback_of_requested (hd.requested p (List.mem_append_right _ hp))
  reported := by
    have hactivate := ProfileQueue.countP_activate run.queue document.activates
    simp [Run.follow, h.reported, ProfileQueue.countP_includeFirst, hactivate]

/-- A probe is no activation. -/
theorem Locked.record {finding : Finding} {location : String} {name : Option String}
    (h : run.Locked) : (run.record (.probed finding location name)).Locked :=
  ⟨h.locks, by simpa [Run.record, Event.isActivation] using h.reported⟩

/-- A run is locked all the way. -/
theorem invariant_locked : Invariant ctx fun _ run => run.FromFiles ctx ∧ run.Locked :=
  QueueInvariant.invariant {
    follow hd h := h.follow hd
    record _ _ _ h := h.record
    keep _ _ _ h := ⟨h.locks, h.reported⟩
    next {run queue profile} hnext h := by
      obtain rfl : run.queue.next.2 = queue := congrArg Prod.snd hnext
      exact ⟨h.locks.next, by simpa using h.reported⟩
    done h := ⟨h.locks.markProcessed _, by simpa [Run.markProcessed] using h.reported⟩
    drained {run queue} hnext h := by
      obtain rfl : run.queue.next.2 = queue := congrArg Prod.snd hnext
      exact ⟨h.locks.next, by simpa using h.reported⟩ }

theorem locked_start {env : Environment} {queue : ProfileQueue} {events : List Event}
    (h : ProfileQueue.start env = .ok (queue, events)) : (Run.start env queue events).Locked :=
  ⟨(ProfileQueue.start_locks h).1, (ProfileQueue.start_locks h).2⟩

/-! ### What is taken from the queue -/

/-- A profile that is done after some rounds was done before, or it was taken from the queue. -/
theorem taken_of_rounds {after : Run} {p : Profile} (hrounds : ReflTransGen (Round ctx) run after)
    (hp : p ∈ after.queue.processed) :
    p ∈ run.queue.processed ∨ ∃ reached rest, ReflTransGen (Round ctx) run reached ∧
      reached.queue.next = (some p, rest) := by
  induction hrounds with
  | refl => exact .inl hp
  | @tail reached _ hbefore hround ih =>
    cases hround with
    | mk hnext hprocess =>
      rw [(processed_round hnext hprocess).2, List.mem_append] at hp
      rcases hp with hp | hp
      · exact ih hp
      · obtain rfl := List.mem_singleton.mp hp
        exact .inr ⟨reached, _, hbefore, hnext⟩

/-- The same holds when the loop is over. -/
theorem taken_of_loop {progress : Progress} {p : Profile} (hloop : Loop ctx run progress)
    (hp : p ∈ progress.1.queue.processed) :
    p ∈ run.queue.processed ∨ ∃ reached rest, ReflTransGen (Round ctx) run reached ∧
      reached.queue.next = (some p, rest) := by
  cases hloop with
  | ends hrounds hnext =>
    rw [ProfileQueue.processed_next_none hnext] at hp
    exact taken_of_rounds hrounds hp
  | @fails reached _ queue profile _ hrounds hnext hprocess =>
    have hafter := processed_process { reached with queue } ctx profile
    rw [hprocess] at hafter
    rw [hafter.trans (ProfileQueue.next_some hnext).2.2.1] at hp
    exact taken_of_rounds hrounds hp

/-- A fallback is taken from the queue only if one waited there at the beginning. -/
theorem exists_fallback_of_taken {env : Environment} {queue rest : ProfileQueue}
    {events : List Event} {reached : Run} {p : Profile} (hprocessed : queue.processed = [])
    (hrounds : ReflTransGen (Round ctx) (Run.start env queue events) reached)
    (hnext : reached.queue.next = (some p, rest)) (hp : p.isFallback = true) :
    ∃ q ∈ queue.pending, q.isFallback = true := by
  by_contra hnone
  have hfirm : queue.Firm :=
    ⟨fun q hq => by simpa using fun h => hnone ⟨q, hq, h⟩,
      fun q hq => by rw [hprocessed] at hq; cases hq⟩
  have hreached := invariant_firm.rounds hrounds
    ⟨fromFiles_start env queue events, hfirm, fun q hq => by cases hq⟩
  rw [(hreached.2.1.next_some hnext).2] at hp
  cases hp

end Run

namespace Loader

variable {loader : Loader} {store : Store} {env : Environment} {run : Run} {p : Profile}

/-- After some rounds of a load the profile is taken from the queue, to be processed. -/
def Takes (loader : Loader) (store : Store) (env : Environment) (run : Run) (p : Profile) : Prop :=
  ∃ locations names queue events rest,
    loader.begin (hide env) = .ok ((locations, names), queue, events) ∧
    ReflTransGen (Run.Round ⟨{ locations, names, registry := loader.registry }, store⟩)
      (Run.start (hide env) queue events) run ∧
    run.queue.next = (some p, rest)

/-- A profile that is done when the run of a load is over was taken from the queue. -/
theorem takes_of_processed (h : p ∈ (loader.lastRun store env).queue.processed) :
    ∃ run, loader.Takes store env run p := by
  rw [← fst_progress] at h
  have hphases := phases_progress loader store env
  generalize loader.progress store env = progress at hphases h
  have hbegun {locations names : List String} {queue : ProfileQueue} {events : List Event}
      {progress : Progress}
      (hbegin : loader.begin (hide env) = .ok ((locations, names), queue, events))
      (hloop : Run.Loop ⟨{ locations, names, registry := loader.registry }, store⟩
        (Run.start (hide env) queue events) progress)
      (hp : p ∈ progress.1.queue.processed) : ∃ run, loader.Takes store env run p := by
    rcases Run.taken_of_loop hloop hp with hold | ⟨run, rest, hrounds, hnext⟩
    · have hnone : (Run.start (hide env) queue events).queue.processed = [] :=
        (ProfileQueue.start_ok (begin_ok hbegin).2).1
      rw [hnone] at hold
      cases hold
    · exact ⟨run, locations, names, queue, events, rest, hbegin, hrounds, hnext⟩
  cases hphases with
  | unbegun => cases h
  | stuck hbegin hloop => exact hbegun hbegin hloop h
  | drained hbegin hloop =>
    rw [(Run.steady_sweep ..).2] at h
    exact hbegun hbegin hloop h

/-- The run of a load is locked when it is over. -/
theorem locked_lastRun (loader : Loader) (store : Store) (env : Environment) :
    (loader.lastRun store env).Locked := by
  rcases lastRun_cases loader store env with hlast | ⟨_, _, _, _, hbegin, hkept⟩
  · rw [hlast]
    exact ⟨fun h => (by cases h), rfl⟩
  · obtain ⟨busy, -, hlast⟩ := hkept _ Run.invariant_locked
      ⟨Run.fromFiles_start _ _ _, Run.locked_start (begin_ok hbegin).2⟩
    exact hlast

/-- Once profiles were activated, no fallback is taken from the queue. -/
theorem Takes.isFallback_eq (h : loader.Takes store env run p) {names : List String}
    (hevent : .activated names ∈ run.events) : p.isFallback = false := by
  obtain ⟨_, _, queue, events, rest, hbegin, hrounds, hnext⟩ := h
  have hlocked := (Run.invariant_locked.rounds hrounds
    ⟨Run.fromFiles_start _ _ _, Run.locked_start (begin_ok hbegin).2⟩).2
  have hsome : 0 < run.events.toList.countP Event.isActivation :=
    List.countP_pos_iff.mpr ⟨_, Array.mem_toList_iff.mpr hevent, rfl⟩
  rw [hlocked.reported] at hsome
  have hactivated : run.queue.isActivated = true := by
    by_contra hopen
    rw [Bool.not_eq_true] at hopen
    rw [hopen] at hsome
    cases hsome
  exact hlocked.locks hactivated p (ProfileQueue.next_some hnext).1

/-- A fallback is taken from the queue only where no profile was named when the load began. -/
theorem Takes.unnamed (h : loader.Takes store env run p) (hp : p.isFallback = true) :
    (hide env).active = .ok [] ∧ (hide env).profilesNamedBy Key.active = .ok [] ∧
      (hide env).profilesNamedBy Key.includes = .ok [] := by
  obtain ⟨_, _, queue, events, rest, hbegin, hrounds, hnext⟩ := h
  have hstart := (begin_ok hbegin).2
  obtain ⟨q, hq, hfallback⟩ := Run.exists_fallback_of_taken
    (ProfileQueue.start_ok hstart).1 hrounds hnext hp
  exact ProfileQueue.start_fallback hstart hq hfallback

/-- Every load, whether or not it fails, activates profiles at most once. After that it takes no
fallback from its queue. A fallback is processed only where, when the load began, no profile was
active, activated or included. -/
theorem activation_locks (loader : Loader) (store : Store) (env : Environment) :
    (loader.load store env).events.toList.countP Event.isActivation ≤ 1 ∧
    (∀ run p, loader.Takes store env run p → ∀ names, .activated names ∈ run.events →
      p.isFallback = false) ∧
    ∀ p, p.isFallback = true →
      (p ∈ (loader.lastRun store env).queue.processed ∨ ∃ run, loader.Takes store env run p) →
        (hide env).active = .ok [] ∧ (hide env).profilesNamedBy Key.active = .ok [] ∧
          (hide env).profilesNamedBy Key.includes = .ok [] := by
  refine ⟨?_, fun run p htakes names => htakes.isFallback_eq, fun p hp hprocessed => ?_⟩
  · rw [events_load, (locked_lastRun loader store env).reported]
    exact Bool.toNat_le _
  · obtain ⟨run, htakes⟩ := hprocessed.elim takes_of_processed id
    exact htakes.unnamed hp

/-! ### A fallback that activates a profile -/

def twoFallbacks : Environment where
  defaultNames := ["one", "two"]

/-- The file of the first fallback activates a profile, and the file of that profile another. -/
def activatingStore : Store :=
  .ofTexts [("file:/application-one.properties", "profiles.active=dev\n"),
    ("file:/application-dev.properties", "profiles.active=late\n"),
    ("file:/application-two.properties", "a=1\n")]

theorem two_not_taken :
    (plainDirectory.lastRun activatingStore twoFallbacks).queue.processed =
        [.unscoped, .fallback "one", .requested "dev"] ∧
      (plainDirectory.load activatingStore twoFallbacks).events.toList.countP
        Event.isActivation = 1 ∧
      (∀ run, plainDirectory.Takes activatingStore twoFallbacks run (.fallback "two") →
        .activated ["dev"] ∉ run.events) ∧
      (hide twoFallbacks).active = .ok [] := by
  have hprocessed : (plainDirectory.lastRun activatingStore twoFallbacks).queue.processed =
      [.unscoped, .fallback "one", .requested "dev"] := by decide +kernel
  obtain ⟨-, hlocked, hunnamed⟩ := activation_locks plainDirectory activatingStore twoFallbacks
  refine ⟨hprocessed, by decide +kernel, fun run htakes hevent => ?_, ?_⟩
  · cases hlocked run _ htakes _ hevent
  · exact (hunnamed (.fallback "one") rfl (.inl (by rw [hprocessed]; decide))).1

end Loader

end LayeredConfig
