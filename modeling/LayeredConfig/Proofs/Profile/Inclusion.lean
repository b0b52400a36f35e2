import LayeredConfig.Proofs.Profile.Calls

/-!
# Included profiles go first

Profiles that are included stand before everything that waits at that moment. Whatever is called
after that, a profile that waited behind them, or that is activated later, is not handed out before
each of them was handed out or counted as done, unless it is included itself. The invariant is the
place of one included profile `p`: it waits, and no profile that is the same as `x` stands before
it.

## Main definitions

* `ProfileQueue.handedOut`, `ProfileQueue.allHandedOut`: the profiles that calls hand out.
* `ProfileQueue.Ahead`: a profile waits, and no `x` stands before it.

## Main results

* `ProfileQueue.Ahead.after`, `ProfileQueue.Ahead.afterAll`: calls keep a profile ahead until it is
  handed out or done.
* `ProfileQueue.included_go_first`: no profile overtakes those that were included before it.
-/

namespace LayeredConfig

theorem Profile.isIn_eq_false_iff {p : Profile} {profiles : List Profile} :
    p.isIn profiles = false ↔ ∀ q ∈ profiles, q.name? ≠ p.name? := by
  rw [← Bool.not_eq_true, isIn_iff, List.mem_map, not_exists]
  exact forall_congr' fun q => not_and

namespace ProfileQueue

/-- The profile that a call hands out, if any. -/
def handedOut (queue : ProfileQueue) : Call → List Profile
  | .next => queue.next.1.toList
  | _ => []

/-- The profiles that calls hand out, one after the other. -/
def allHandedOut : ProfileQueue → List Call → List Profile
  | _, [] => []
  | queue, call :: calls => queue.handedOut call ++ (queue.after call).allHandedOut calls

/-- The profile `p` waits, and no profile that is the same as `x` stands before it. -/
def Ahead (queue : ProfileQueue) (p x : Profile) : Prop :=
  ∃ before after, queue.pending = before ++ p :: after ∧ ∀ q ∈ before, q.name? ≠ x.name?

variable {queue origin : ProfileQueue} {profiles : List Profile} {later : List Call}
  {p x r : Profile}

/-! ### What one call does to a profile that is ahead -/

/-- Profiles that are activated go to the end, and only fallbacks are dropped. -/
theorem Ahead.activate (h : queue.Ahead p x) (hp : p.isFallback = false)
    (profiles : List Profile) : (queue.activate profiles).1.Ahead p x := by
  obtain ⟨before, after, hsplit, hx⟩ := h
  unfold ProfileQueue.activate
  split
  · exact ⟨before, after, hsplit, hx⟩
  · split
    · exact ⟨before, after, hsplit, hx⟩
    · refine ⟨before.filter fun q => !q.isFallback,
        (after ++ profiles).filter fun q => !q.isFallback, by simp [hsplit, hp], fun q hq => ?_⟩
      exact hx q (List.mem_filter.mp hq).1

/-- Profiles that are included stand before `p`, but `x` is not among them. -/
theorem Ahead.includeFirst (h : queue.Ahead p x) (hopen : p.isIn queue.processed = false)
    (hprofiles : x.isIn profiles = false) : (queue.includeFirst profiles).1.Ahead p x := by
  obtain ⟨before, after, hsplit, hx⟩ := h
  unfold ProfileQueue.includeFirst
  split
  · exact ⟨before, after, hsplit, hx⟩
  · refine ⟨(profiles ++ before).filter fun q => !q.isIn queue.processed,
      after.filter fun q => !q.isIn queue.processed, by simp [hsplit, hopen], fun q hq => ?_⟩
    rcases List.mem_append.mp (List.mem_filter.mp hq).1 with hq | hq
    · exact Profile.isIn_eq_false_iff.mp hprofiles q hq
    · exact hx q hq

/-- A profile that is included stands ahead of every other one, unless it is done. -/
theorem ahead_includeFirst (hp : p ∈ profiles) (hprofiles : x.isIn profiles = false)
    (hopen : p.isIn queue.processed = false) : (queue.includeFirst profiles).1.Ahead p x := by
  obtain ⟨before, after, rfl⟩ := List.append_of_mem hp
  unfold includeFirst
  rw [if_neg (by simp)]
  refine ⟨before.filter fun q => !q.isIn queue.processed,
    (after ++ queue.pending).filter fun q => !q.isIn queue.processed, by simp [hopen],
    fun q hq => ?_⟩
  exact Profile.isIn_eq_false_iff.mp hprofiles q
    (List.mem_append_left _ (List.mem_filter.mp hq).1)

/-- The next profile is `p` itself or stands before it. -/
theorem Ahead.next (h : queue.Ahead p x) (hopen : p.isIn queue.processed = false) :
    ∃ r, queue.next.1 = some r ∧ (r = p ∨ r.name? ≠ x.name? ∧ queue.next.2.Ahead p x) := by
  obtain ⟨before, after, hsplit, hx⟩ := h
  have hdrop := @List.dropWhile_append _ (fun q => q.isIn queue.processed) before (p :: after)
  rw [List.dropWhile_cons_of_neg (by simp [hopen])] at hdrop
  unfold ProfileQueue.next
  rw [hsplit, hdrop]
  cases hleft : before.dropWhile fun q => q.isIn queue.processed with
  | nil => exact ⟨p, rfl, .inl rfl⟩
  | cons r rest =>
    have hsub : (r :: rest).Sublist before := hleft ▸ List.dropWhile_sublist _
    refine ⟨r, rfl, .inr ⟨hx r (hsub.subset List.mem_cons_self), rest, after, rfl, ?_⟩⟩
    exact fun q hq => hx q (hsub.subset (List.mem_cons_of_mem _ hq))

/-- A call keeps a profile that is not done ahead of `x` or hands it out, as long as it does not
include `x`. -/
theorem Ahead.after {call : Call} (h : queue.Ahead p x) (hp : p.isFallback = false)
    (hopen : p.isIn queue.processed = false)
    (hcall : ∀ others, call = .includeFirst others → x.isIn others = false) :
    p ∈ queue.handedOut call ∨ (queue.after call).Ahead p x := by
  cases call with
  | activate profiles => exact .inr (h.activate hp profiles)
  | includeFirst others => exact .inr (h.includeFirst hopen (hcall others rfl))
  | next =>
    obtain ⟨r, hr, rfl | ⟨-, hahead⟩⟩ := h.next hopen
    · exact .inl (by simp [handedOut, hr])
    · exact .inr hahead
  | markProcessed r =>
    refine .inr ?_
    rwa [ProfileQueue.after, Ahead, pending_markProcessed]

/-! ### What calls do to it -/

theorem isIn_processed_afterAll (h : p.isIn queue.processed = true) (calls : List Call) :
    p.isIn (queue.afterAll calls).processed = true := by
  rw [Profile.isIn_iff] at h ⊢
  exact ((prefix_afterAll calls).map Profile.name?).subset h

/-- Calls keep a profile ahead of `x`, unless they hand it out or count it as done, as long as they
do not include `x`. -/
theorem Ahead.afterAll (h : queue.Ahead p x) (hp : p.isFallback = false)
    (hlater : ∀ others, .includeFirst others ∈ later → x.isIn others = false) :
    p ∈ queue.allHandedOut later ∨ p.isIn (queue.afterAll later).processed = true ∨
      (queue.afterAll later).Ahead p x := by
  induction later generalizing queue with
  | nil => exact .inr (.inr h)
  | cons call later ih =>
    cases hopen : p.isIn queue.processed with
    | true => exact .inr (.inl (isIn_processed_afterAll hopen (call :: later)))
    | false =>
      have hcall : ∀ others, call = .includeFirst others → x.isIn others = false := by
        rintro others rfl
        exact hlater others List.mem_cons_self
      rcases h.after hp hopen hcall with hout | hahead
      · exact .inl (List.mem_append_left _ hout)
      · refine (ih hahead fun others hothers => ?_).imp_left (List.mem_append_right _)
        exact hlater others (List.mem_cons_of_mem _ hothers)

theorem afterAll_append {before after : List Call} :
    origin.afterAll (before ++ after) = (origin.afterAll before).afterAll after :=
  List.foldl_append

/-- Wherever profiles are included among the calls of a queue, another profile `x`, which no later
call includes, is not handed out after that before each of them was handed out, too, or is done. -/
theorem included_go_first {before : List Call} (hprofiles : ∀ p ∈ profiles, p.isRequested = true)
    (hx : x.isIn profiles = false)
    (hlater : ∀ others, .includeFirst others ∈ later → x.isIn others = false)
    (hnext : (origin.afterAll (before ++ .includeFirst profiles :: later)).next.1 = some r)
    (hr : r.same x = true) :
    ∀ p ∈ profiles,
      p ∈ (origin.afterAll (before ++ [.includeFirst profiles])).allHandedOut later ∨
      p.isIn (origin.afterAll (before ++ .includeFirst profiles :: later)).processed = true := by
  intro p hp
  have hfirm : p.isFallback = false := by
    have hrequested := hprofiles p hp
    cases p <;> simp_all [Profile.isRequested, Profile.isFallback]
  rw [afterAll_append] at hnext ⊢
  rw [afterAll_append]
  set queue := origin.afterAll before
  change (((queue.includeFirst profiles).1.afterAll later).next.1 = some r) at hnext
  change p ∈ (queue.includeFirst profiles).1.allHandedOut later ∨
    p.isIn ((queue.includeFirst profiles).1.afterAll later).processed = true
  cases hdone : p.isIn ((queue.includeFirst profiles).1.afterAll later).processed with
  | true => exact .inr rfl
  | false =>
    have hopen : p.isIn queue.processed = false := by
      by_contra h
      rw [isIn_processed_afterAll (by simpa using h)] at hdone
      cases hdone
    rcases (ahead_includeFirst hp hx hopen).afterAll hfirm hlater with hout | hdone' | hahead
    · exact .inl hout
    · exact .inr (hdone ▸ hdone')
    -- otherwise `p` still waits, and what is handed out next is `p` or no `x`
    · obtain ⟨q, hq, rfl | ⟨hname, -⟩⟩ := hahead.next hdone
      · cases hnext.symm.trans hq
        exact absurd (Profile.same_iff.mp hr) (Profile.isIn_eq_false_iff.mp hx r hp)
      · cases hnext.symm.trans hq
        exact absurd (Profile.same_iff.mp hr) hname

/-! ### A profile that is overtaken -/

/-- Three profiles wait. -/
def threeWaiting : ProfileQueue where
  pending := [.unscoped, .requested "base", .requested "cloud"]

/-- The unscoped profile is processed. -/
def firstCalls : List Call := [.next, .markProcessed .unscoped]

/-- Two profiles that are included then, one of which waits already. -/
def twoIncluded : List Profile := [.requested "dev", .requested "cloud"]

/-- One of the two is processed, a third profile is activated, a fourth one is included, and the
other of the two is counted as done without having been handed out. -/
def overtakingCalls : List Call :=
  [.next, .activate [.requested "late"], .markProcessed (.requested "dev"),
    .includeFirst [.requested "metrics"], .next, .markProcessed (.requested "metrics"),
    .markProcessed (.requested "cloud")]

theorem base_overtaken :
    let base := Profile.requested "base"
    let calls := firstCalls ++ .includeFirst twoIncluded :: overtakingCalls
    (∀ p ∈ twoIncluded, p.isRequested = true) ∧ base.isIn twoIncluded = false ∧
      (∀ others, .includeFirst others ∈ overtakingCalls → base.isIn others = false) ∧
      (threeWaiting.afterAll calls).next.1 = some base ∧
      ∀ p ∈ twoIncluded,
        p ∈ (threeWaiting.afterAll (firstCalls ++ [.includeFirst twoIncluded])).allHandedOut
          overtakingCalls ∨ p.isIn (threeWaiting.afterAll calls).processed = true := by
  intro base calls
  have hrequested : ∀ p ∈ twoIncluded, p.isRequested = true := by decide
  have hother : base.isIn twoIncluded = false := by decide
  have hlater : ∀ others, .includeFirst others ∈ overtakingCalls → base.isIn others = false := by
    intro others hothers
    obtain rfl : others = [.requested "metrics"] := by simpa [overtakingCalls] using hothers
    decide
  have hnext : (threeWaiting.afterAll calls).next.1 = some base := by decide
  exact ⟨hrequested, hother, hlater, hnext,
    included_go_first hrequested hother hlater hnext (by decide)⟩

end ProfileQueue

end LayeredConfig
