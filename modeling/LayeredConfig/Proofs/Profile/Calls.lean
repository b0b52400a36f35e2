import LayeredConfig.Proofs.Profile.Queue
import Mathlib.Data.List.Nodup

/-!
# Calls of the queue of profiles

A queue is used through four calls: profiles are activated or included, the next one is taken, and
one is counted as done. The calls may come in any order, with one exception: a profile that was
taken is counted as done before the next one is taken. Under that discipline the queue loses
nothing that was asked for. A profile that is activated or included while another one is being
processed may be dropped at once, may wait twice, or may be skipped when it is its turn; in each
case the same profile is done, or will be.

## Main definitions

* `ProfileQueue.Call`, `ProfileQueue.after`, `ProfileQueue.afterAll`: the calls and what they do.
* `ProfileQueue.InUse`: a queue with the profile that is being processed.
* `ProfileQueue.InUse.Orderly`: no profile is taken while another one is being processed.
* `ProfileQueue.Requested`: a profile waited at the beginning, or a call asked for it.

## Main results

* `ProfileQueue.InUse.Holds.afterAll`: what a queue in use holds stays there.
* `ProfileQueue.orderly_calls`: each profile is done once, in an order that never changes, and
  whatever was requested is done when no profile is left.
-/

namespace LayeredConfig

namespace ProfileQueue

/-- A call of the queue. -/
inductive Call
  | activate (profiles : List Profile)
  | includeFirst (profiles : List Profile)
  | next
  | markProcessed (profile : Profile)
  deriving DecidableEq, Repr

/-- The queue after a call. -/
def after (queue : ProfileQueue) : Call → ProfileQueue
  | .activate profiles => (queue.activate profiles).1
  | .includeFirst profiles => (queue.includeFirst profiles).1
  | .next => queue.next.2
  | .markProcessed profile => queue.markProcessed profile

/-- The queue after calls, one after the other. -/
def afterAll (queue : ProfileQueue) (calls : List Call) : ProfileQueue :=
  calls.foldl after queue

/-- The queue with which a use begins: the empty one, or the one with which a load begins. -/
def IsOrigin (queue : ProfileQueue) : Prop :=
  queue = {} ∨ ∃ env events, start env = .ok (queue, events)

/-- The call asks the queue for a profile: to include it, or to activate it while activation is
not locked. -/
def Call.Requests (queue : ProfileQueue) (p : Profile) : Call → Prop
  | activate profiles => queue.isActivated = false ∧ p ∈ profiles
  | includeFirst profiles => p ∈ profiles
  | next => False
  | markProcessed _ => False

/-- The profile waited in the queue with which the calls begin, or a call asked for it. -/
def Requested (origin : ProfileQueue) (calls : List Call) (p : Profile) : Prop :=
  p ∈ origin.pending ∨
    ∃ before call after, calls = before ++ call :: after ∧
      call.Requests (origin.afterAll before) p

/-- A queue, and the profile that was taken from it and is not done yet. -/
structure InUse where
  queue : ProfileQueue
  busy : Option Profile := none

namespace InUse

/-- The queue in use after a call. Taking a profile makes it busy until it is counted as done. -/
def after (use : InUse) (call : Call) : InUse where
  queue := use.queue.after call
  busy :=
    match call with
    | .next => use.queue.next.1
    | .markProcessed profile => use.busy.filter fun p => !profile.same p
    | _ => use.busy

/-- The queue in use after calls, one after the other. -/
def afterAll (use : InUse) (calls : List Call) : InUse :=
  calls.foldl after use

/-- Every profile that is taken is counted as done before the next one is taken. -/
def Orderly : InUse → List Call → Prop
  | _, [] => True
  | use, call :: calls => (call = .next → use.busy = none) ∧ Orderly (use.after call) calls

instance decidableOrderly : (use : InUse) → (calls : List Call) → Decidable (Orderly use calls)
  | _, [] => .isTrue trivial
  | use, call :: calls =>
    have := decidableOrderly (use.after call) calls
    inferInstanceAs (Decidable ((call = .next → use.busy = none) ∧ Orderly _ calls))

end InUse

/-! ### The profiles that are done -/

variable {queue origin : ProfileQueue} {calls : List Call} {p : Profile}

@[simp] theorem processed_next : queue.next.2.processed = queue.processed := by
  unfold next
  split <;> rfl

/-- Counting as done adds a profile at the end, or nothing. -/
private theorem prefix_markProcessed : queue.processed <+: (queue.markProcessed p).processed := by
  unfold markProcessed
  split
  · exact List.prefix_rfl
  · exact List.prefix_append ..

private theorem nodup_markProcessed (h : (profileNames queue.processed).Nodup) :
    (profileNames (queue.markProcessed p).processed).Nodup := by
  unfold markProcessed
  split
  · exact h
  · next hnew =>
    rw [profileNames, List.map_append, List.map_singleton, ← List.concat_eq_append]
    exact List.Nodup.concat (by rwa [Profile.isIn_iff] at hnew) h

/-- A call changes the profiles that are done at the end only. -/
theorem prefix_after (call : Call) : queue.processed <+: (queue.after call).processed := by
  cases call with
  | activate profiles => simp [after]
  | includeFirst profiles => simp [after]
  | next => simp [after]
  | markProcessed profile => exact prefix_markProcessed

theorem prefix_afterAll (calls : List Call) :
    queue.processed <+: (queue.afterAll calls).processed := by
  induction calls generalizing queue with
  | nil => exact List.prefix_rfl
  | cons call calls ih => exact (prefix_after call).trans ih

/-- A call makes no profile done twice. -/
theorem nodup_after (call : Call) (h : (profileNames queue.processed).Nodup) :
    (profileNames (queue.after call).processed).Nodup := by
  cases call with
  | activate profiles => rwa [after, processed_activate]
  | includeFirst profiles => rwa [after, processed_includeFirst]
  | next => rwa [after, processed_next]
  | markProcessed profile => exact nodup_markProcessed h

theorem nodup_afterAll (calls : List Call) (h : (profileNames queue.processed).Nodup) :
    (profileNames (queue.afterAll calls).processed).Nodup := by
  induction calls generalizing queue with
  | nil => exact h
  | cons call calls ih => exact ih (nodup_after call h)

theorem IsOrigin.processed_eq (h : origin.IsOrigin) : origin.processed = [] := by
  rcases h with rfl | ⟨env, events, hstart⟩
  · rfl
  · obtain ⟨-, -, -, -, -, -, -, -, rfl, -⟩ := start_cases hstart
    exact processed_activate

/-! ### What a queue in use holds -/

namespace InUse

variable {use : InUse}

/-- The profile waits, is being processed, or is done. -/
def Holds (use : InUse) (p : Profile) : Prop :=
  use.queue.Holds use.busy.toList p

theorem queue_afterAll (calls : List Call) :
    (use.afterAll calls).queue = use.queue.afterAll calls := by
  induction calls generalizing use with
  | nil => rfl
  | cons call calls ih => exact ih

/-- What a queue in use holds stays there with every call that is in order. -/
theorem Holds.after {call : Call} (h : use.Holds p) (hp : p.isFallback = false)
    (horderly : call = .next → use.busy = none) : (use.after call).Holds p := by
  cases call with
  | activate profiles => exact ProfileQueue.Holds.activate h hp profiles
  | includeFirst profiles => exact ProfileQueue.Holds.includeFirst h profiles
  | next =>
    rw [Holds, horderly rfl] at h
    rw [Holds, InUse.after, ProfileQueue.after]
    cases htaken : use.queue.next.1 with
    | some r => exact h.next_some (Prod.ext htaken rfl)
    | none => exact holds_of_done (h.next_none (Prod.ext htaken rfl))
  | markProcessed r =>
    rw [Holds, InUse.after, Option.toList_filter]
    exact h.mark r

/-- What a queue in use holds stays there with calls that are in order. -/
theorem Holds.afterAll (h : use.Holds p) (hp : p.isFallback = false)
    (horderly : use.Orderly calls) : (use.afterAll calls).Holds p := by
  induction calls generalizing use with
  | nil => exact h
  | cons call calls ih => exact ih (h.after hp horderly.1) horderly.2

/-- A call makes the queue hold the profiles that it asks for. -/
theorem holds_of_requests {call : Call} (h : call.Requests use.queue p)
    (hp : p.isFallback = false) : (use.after call).Holds p := by
  cases call with
  | activate profiles => exact .inl (mem_pending_of_open h.1 (.inr h.2) hp)
  | includeFirst profiles => exact holds_includeFirst h
  | next => exact h.elim
  | markProcessed r => exact h.elim

theorem orderly_append {before after : List Call} :
    use.Orderly (before ++ after) ↔ use.Orderly before ∧ (use.afterAll before).Orderly after := by
  induction before generalizing use with
  | nil => simp [Orderly, afterAll]
  | cons call before ih => simp [Orderly, afterAll, ih, and_assoc]

theorem afterAll_append {before after : List Call} :
    use.afterAll (before ++ after) = (use.afterAll before).afterAll after :=
  List.foldl_append

end InUse

/-- After calls that are in order, the queue holds everything that was requested. -/
theorem Requested.holds (h : Requested origin calls p) (hp : p.isFallback = false)
    (horderly : (InUse.mk origin none).Orderly calls) :
    ((InUse.mk origin none).afterAll calls).Holds p := by
  rcases h with hwaits | ⟨before, call, after, rfl, hrequests⟩
  · exact InUse.Holds.afterAll (.inl hwaits) hp horderly
  · replace hrequests : call.Requests ((InUse.mk origin none).afterAll before).queue p := by
      rwa [InUse.queue_afterAll]
    have hheld := (InUse.holds_of_requests hrequests hp).afterAll hp
      (InUse.orderly_append.mp horderly).2.2
    rwa [InUse.afterAll_append]

/-- In a queue that is used in order no profile is done twice, the profiles that are done change at
the end only, no profile is handed out that is done, and once no profile is left, everything that
was requested is done, apart from fallbacks. -/
theorem orderly_calls (horigin : origin.IsOrigin)
    (horderly : (InUse.mk origin none).Orderly calls) :
    (profileNames (origin.afterAll calls).processed).Nodup ∧
    (∀ more, (origin.afterAll calls).processed <+:
      (origin.afterAll (calls ++ more)).processed) ∧
    (∀ p, (origin.afterAll calls).next.1 = some p →
      p.isIn (origin.afterAll calls).processed = false) ∧
    ((InUse.mk origin none).Orderly (calls ++ [.next]) → (origin.afterAll calls).next.1 = none →
      ∀ p, p.isFallback = false → Requested origin calls p →
        p.isIn (origin.afterAll calls).processed = true) := by
  refine ⟨?_, fun more => ?_, fun p hp => ?_, fun hnext hnone p hp hrequested => ?_⟩
  · exact nodup_afterAll calls (by rw [horigin.processed_eq]; exact List.nodup_nil)
  · rw [afterAll, afterAll, List.foldl_append]
    exact prefix_afterAll more
  · exact (next_some (Prod.ext hp rfl)).2.1
  · have hidle := (InUse.orderly_append.mp hnext).2.1 rfl
    have hholds := hrequested.holds hp horderly
    rw [InUse.Holds, hidle, InUse.queue_afterAll] at hholds
    rw [← processed_next]
    exact hholds.next_none (Prod.ext hnone rfl)

/-! ### A use in which requests cross each other -/

/-- What waits when a load begins for which nothing is configured. -/
def plainOrigin : ProfileQueue where
  pending := [.unscoped, .fallback "default"]

/-- While the unscoped profile is being processed, two profiles are activated and a third one is
included. While that one is being processed, one of the two is included again, and an activation
comes too late. -/
def crossingCalls : List Call :=
  [.next, .activate [.requested "dev", .requested "cloud"], .includeFirst [.requested "base"],
    .markProcessed .unscoped, .next, .includeFirst [.requested "cloud"],
    .activate [.requested "late"], .markProcessed (.requested "base"), .next,
    .markProcessed (.requested "cloud"), .next, .markProcessed (.requested "dev")]

theorem cloud_done_of_crossingCalls :
    plainOrigin.IsOrigin ∧ (InUse.mk plainOrigin none).Orderly (crossingCalls ++ [.next]) ∧
      (plainOrigin.afterAll crossingCalls).next.1 = none ∧
      Requested plainOrigin crossingCalls (.requested "cloud") ∧
      (Profile.requested "cloud").isIn (plainOrigin.afterAll crossingCalls).processed = true := by
  have horigin : plainOrigin.IsOrigin := .inr ⟨{}, [], by decide +kernel⟩
  have hnext : (InUse.mk plainOrigin none).Orderly (crossingCalls ++ [.next]) := by decide
  have hnone : (plainOrigin.afterAll crossingCalls).next.1 = none := by decide
  have hrequested : Requested plainOrigin crossingCalls (.requested "cloud") :=
    .inr ⟨[.next], _, _, rfl, by decide, by decide⟩
  have horderly := (InUse.orderly_append.mp hnext).1
  exact ⟨horigin, hnext, hnone, hrequested,
    (orderly_calls horigin horderly).2.2.2 hnext hnone _ rfl hrequested⟩

end ProfileQueue

end LayeredConfig
