import LayeredConfig.Load.Drain
import Mathlib.Data.List.TakeWhile

/-!
# What the queue of profiles holds

A profile that was asked for waits in the queue, is being processed, or is done. Activating and
including put it there, and of what waits only the fallbacks are ever dropped. So nothing that was
asked for is left when the queue is empty.

## Main definitions

* `ProfileQueue.Holds`: a profile waits, is being processed, or is done.
* `ProfileQueue.Firm`: no fallback waits or is done.

## Main results

* `ProfileQueue.Holds.activate`, `ProfileQueue.Holds.includeFirst`, `ProfileQueue.Holds.next_some`,
  `ProfileQueue.Holds.mark`: what the queue holds stays there.
* `ProfileQueue.Holds.next_none`: once the queue is empty, what it holds is done.
* `ProfileQueue.start_active`, `ProfileQueue.start_activated`: the queue with which a load begins
  holds the active profiles and those that it reports as activated.
* `ProfileQueue.start_fallback`: it holds fallbacks only where nothing else was named.
* `ProfileQueue.finalActive_ok`: the profiles with which a load ends.
-/

namespace LayeredConfig

/-- What a key of the chain names counts as asked for. -/
theorem Environment.requested_of_profilesNamedBy {env : Environment} {key : String}
    {profiles : List Profile} (h : env.profilesNamedBy key = .ok profiles) :
    ∀ p ∈ profiles, ∃ name, p = .requested name := by
  intro p hp
  unfold profilesNamedBy at h
  split at h
  · obtain ⟨names, -, h⟩ := Failure.bind_eq_ok_iff.mp h
    cases h
    obtain ⟨name, -, rfl⟩ := List.mem_map.mp hp
    exact ⟨name, rfl⟩
  · cases h
    cases hp

namespace ProfileQueue

variable {queue rest : ProfileQueue} {profiles busy : List Profile} {p r : Profile}

/-- The profile waits, or it is the same as one that is done or that is being processed. -/
def Holds (queue : ProfileQueue) (busy : List Profile) (p : Profile) : Prop :=
  p ∈ queue.pending ∨ p.isIn (queue.processed ++ busy) = true

theorem holds_of_done (h : p.isIn queue.processed = true) : queue.Holds busy p := by
  refine .inr (Profile.isIn_iff.mpr ?_)
  rw [profileNames, List.map_append]
  exact List.mem_append_left _ (Profile.isIn_iff.mp h)

/-! ### Activating and including -/

theorem isFallback_of_requested (h : ∃ name, p = .requested name) : p.isFallback = false := by
  obtain ⟨name, rfl⟩ := h
  rfl

/-- Activation drops nothing but fallbacks. -/
theorem Holds.activate (h : queue.Holds busy p) (hp : p.isFallback = false)
    (profiles : List Profile) : (queue.activate profiles).1.Holds busy p := by
  rcases h with h | h
  · refine .inl ?_
    unfold ProfileQueue.activate
    split
    · exact h
    · split
      · exact h
      · exact List.mem_filter.mpr ⟨List.mem_append_left _ h, by simp [hp]⟩
  · exact .inr (by rwa [processed_activate])

/-- Including drops only what is done. -/
theorem Holds.includeFirst (h : queue.Holds busy p) (profiles : List Profile) :
    (queue.includeFirst profiles).1.Holds busy p := by
  rcases h with h | h
  · by_cases hdone : p.isIn queue.processed = true
    · exact holds_of_done (by rwa [processed_includeFirst])
    · refine .inl ?_
      unfold ProfileQueue.includeFirst
      split
      · exact h
      · exact List.mem_filter.mpr ⟨List.mem_append_right _ h, by simpa using hdone⟩
  · exact .inr (by rwa [processed_includeFirst])

/-- What an activation does that takes effect. -/
private theorem activate_of_activated {names : List String}
    (h : .activated names ∈ (queue.activate profiles).2) :
    names = Profile.names profiles ∧ (queue.activate profiles).1.pending =
      (queue.pending ++ profiles).filter fun p => !p.isFallback := by
  unfold activate at h ⊢
  split at h
  · cases h
  · next hsome =>
    split at h
    · simp at h
    · next hopen =>
      rw [if_neg hsome, if_neg hopen]
      exact ⟨by simpa using h, rfl⟩

/-- An activation that takes effect makes all its profiles wait. -/
theorem mem_pending_of_activated {names : List String} {name : String}
    (hprofiles : ∀ p ∈ profiles, ∃ name, p = .requested name)
    (h : .activated names ∈ (queue.activate profiles).2) (hname : name ∈ names) :
    .requested name ∈ (queue.activate profiles).1.pending := by
  obtain ⟨rfl, hpending⟩ := activate_of_activated h
  obtain ⟨p, hp, hpname⟩ := List.mem_filterMap.mp hname
  obtain ⟨other, rfl⟩ := hprofiles p hp
  cases hpname
  rw [hpending]
  exact List.mem_filter.mpr ⟨List.mem_append_right _ hp, rfl⟩

/-- What an activation makes wait is reported. -/
theorem activated_of_mem_pending (hprofiles : ∀ p ∈ profiles, ∃ name, p = .requested name)
    (h : p ∈ (queue.activate profiles).1.pending) :
    p ∈ queue.pending ∨ ∃ names, .activated names ∈ (queue.activate profiles).2 ∧
      ∃ name ∈ names, p = .requested name := by
  unfold activate at h ⊢
  split at h
  · exact .inl h
  · next hsome =>
    split at h
    · exact .inl h
    · next hopen =>
      rw [if_neg hsome, if_neg hopen]
      refine (List.mem_append.mp (List.mem_filter.mp h).1).imp_right fun hp => ?_
      obtain ⟨name, rfl⟩ := hprofiles p hp
      exact ⟨_, List.mem_singleton_self _, name, List.mem_filterMap.mpr ⟨_, hp, rfl⟩, rfl⟩

/-- Including reports no activation. -/
theorem activated_notMem_includeFirst {names : List String} :
    .activated names ∉ (queue.includeFirst profiles).2 := by
  unfold includeFirst
  split <;> simp

/-- A profile that is included waits, unless it is done. -/
theorem holds_includeFirst (hp : p ∈ profiles) : (queue.includeFirst profiles).1.Holds busy p := by
  by_cases hdone : p.isIn queue.processed = true
  · exact holds_of_done (by rwa [processed_includeFirst])
  · refine .inl ?_
    unfold includeFirst
    rw [if_neg (by simpa using List.ne_nil_of_mem hp)]
    exact List.mem_filter.mpr ⟨List.mem_append_left _ hp, by simpa using hdone⟩

/-! ### Taking profiles from the queue -/

/-- The profiles that are passed over are done. -/
private theorem done_or_left (h : p ∈ queue.pending) :
    p.isIn queue.processed = true ∨
      p ∈ queue.pending.dropWhile fun p => p.isIn queue.processed := by
  rw [← List.takeWhile_append_dropWhile (p := fun p => p.isIn queue.processed) (l := queue.pending),
    List.mem_append] at h
  rcases h with hpassed | hleft
  · have hdone := List.mem_takeWhile_imp hpassed
    exact .inl hdone
  · exact .inr hleft

/-- A profile that is taken from the queue is being processed. -/
theorem Holds.next_some (hnext : queue.next = (some r, rest)) (h : queue.Holds [] p) :
    rest.Holds [r] p := by
  rw [Holds, List.append_nil] at h
  replace h := h.elim done_or_left .inl
  unfold next at hnext
  split at hnext
  · cases hnext
  · next pending heq =>
    cases hnext
    rw [heq, List.mem_cons] at h
    rcases h with hdone | rfl | hwaits
    · exact holds_of_done hdone
    · exact .inr (Profile.isIn_iff.mpr (by simp))
    · exact .inl hwaits

/-- When no profile is left, what the queue holds is done. -/
theorem Holds.next_none (hnext : queue.next = (none, rest)) (h : queue.Holds [] p) :
    p.isIn rest.processed = true := by
  rw [Holds, List.append_nil] at h
  replace h := h.elim done_or_left .inl
  unfold next at hnext
  split at hnext
  · next heq =>
    cases hnext
    rw [heq] at h
    exact h.resolve_right List.not_mem_nil
  · cases hnext

theorem pending_next_none (hnext : queue.next = (none, rest)) : rest.pending = [] := by
  unfold next at hnext
  split at hnext <;> cases hnext
  rfl

/-- Counting a profile as done adds its name to the names that are done. -/
theorem isIn_markProcessed :
    p.isIn (queue.markProcessed r).processed = true ↔
      p.isIn queue.processed = true ∨ p.name? = r.name? := by
  unfold ProfileQueue.markProcessed
  split
  · next hdone =>
    refine ⟨.inl, fun h => h.elim id fun hname => ?_⟩
    rw [Profile.isIn_iff] at hdone ⊢
    rwa [hname]
  · simp [Profile.isIn_iff]

/-- A profile that is counted as done is no longer being processed. -/
theorem Holds.mark (h : queue.Holds busy p) (r : Profile) :
    (queue.markProcessed r).Holds (busy.filter fun q => !r.same q) p := by
  rcases h with h | h
  · exact .inl (by rwa [pending_markProcessed])
  · rw [Profile.isIn_iff, profileNames, List.map_append, List.mem_append] at h
    rcases h with hdone | hbusy
    · exact holds_of_done (isIn_markProcessed.mpr (.inl (Profile.isIn_iff.mpr hdone)))
    · obtain ⟨q, hq, hname⟩ := List.mem_map.mp hbusy
      by_cases hr : p.name? = r.name?
      · exact holds_of_done (isIn_markProcessed.mpr (.inr hr))
      · refine .inr (Profile.isIn_iff.mpr (List.mem_map.mpr ⟨q, ?_, hname⟩))
        have hother : r.same q = false := by
          rw [Bool.eq_false_iff, ne_eq, Profile.same_iff, hname]
          exact fun h => hr h.symm
        exact List.mem_append_right _ (List.mem_filter.mpr ⟨hq, by rw [hother]; rfl⟩)

/-- A profile that was processed is done. -/
theorem Holds.markProcessed (h : queue.Holds [r] p) : (queue.markProcessed r).Holds [] p := by
  have hmarked := h.mark r
  rwa [List.filter_cons_of_neg (by simp), List.filter_nil] at hmarked

/-! ### Fallbacks -/

/-- No fallback waits or is done. -/
def Firm (queue : ProfileQueue) : Prop :=
  (∀ p ∈ queue.pending, p.isFallback = false) ∧ ∀ p ∈ queue.processed, p.isFallback = false

theorem Firm.activate (h : queue.Firm) (profiles : List Profile)
    (hprofiles : ∀ p ∈ profiles, p.isFallback = false) : (queue.activate profiles).1.Firm := by
  refine ⟨fun p hp => ?_, by simpa using h.2⟩
  exact (mem_pending_activate hp).elim (h.1 p) (hprofiles p)

theorem Firm.includeFirst (h : queue.Firm) (profiles : List Profile)
    (hprofiles : ∀ p ∈ profiles, p.isFallback = false) : (queue.includeFirst profiles).1.Firm := by
  refine ⟨fun p hp => ?_, by simpa using h.2⟩
  exact (mem_pending_includeFirst hp).elim (h.1 p) (hprofiles p)

theorem Firm.next_some (hnext : queue.next = (some r, rest)) (h : queue.Firm) :
    rest.Firm ∧ r.isFallback = false := by
  obtain ⟨hmem, -, hprocessed, hsub⟩ := ProfileQueue.next_some hnext
  exact ⟨⟨fun p hp => h.1 p (hsub p hp), by rw [hprocessed]; exact h.2⟩, h.1 r hmem⟩

theorem Firm.next_none (hnext : queue.next = (none, rest)) (h : queue.Firm) : rest.Firm := by
  unfold next at hnext
  split at hnext <;> cases hnext
  exact ⟨fun p hp => (by cases hp), h.2⟩

theorem Firm.markProcessed (h : queue.Firm) (hr : r.isFallback = false) :
    (queue.markProcessed r).Firm := by
  refine ⟨by simpa using h.1, fun p hp => ?_⟩
  unfold ProfileQueue.markProcessed at hp
  split at hp
  · exact h.2 p hp
  · rcases List.mem_append.mp hp with hp | hp
    · exact h.2 p hp
    · rwa [List.mem_singleton.mp hp]

/-! ### The queue with which a load begins -/

/-- An activation that is not locked keeps what waits and adds the profiles, apart from
fallbacks. -/
theorem mem_pending_of_open (hopen : queue.isActivated = false)
    (hp : p ∈ queue.pending ∨ p ∈ profiles) (hfirm : p.isFallback = false) :
    p ∈ (queue.activate profiles).1.pending := by
  unfold activate
  split
  · next hnil =>
    rw [List.isEmpty_iff.mp hnil] at hp
    exact hp.resolve_right List.not_mem_nil
  · rw [if_neg (by simp [hopen])]
    exact List.mem_filter.mpr ⟨List.mem_append.mpr hp, by simp [hfirm]⟩

/-- The queue with which a load begins, before fallbacks are considered, and the events. -/
def opening (active : List String) (activated included : List Profile) :
    ProfileQueue × List Event :=
  let others := (active.map Profile.requested).filter fun p =>
    !p.isIn activated && !p.isIn included
  activate { pending := .unscoped :: others ++ included } activated

/-- What decides about the queue with which a load begins. Fallbacks are added where nothing but
the unscoped profile waits. -/
theorem start_cases {env : Environment} {events : List Event}
    (h : start env = .ok (queue, events)) :
    ∃ active activated included fallbacks, env.active = .ok active ∧
      env.profilesNamedBy Key.active = .ok activated ∧
      env.profilesNamedBy Key.includes = .ok included ∧
      events = (opening active activated included).2 ∧
      queue = { (opening active activated included).1 with
        pending := (opening active activated included).1.pending ++ fallbacks } ∧
      (fallbacks ≠ [] → (opening active activated included).1.pending.length = 1) := by
  unfold start at h
  obtain ⟨activated, hactivated, h⟩ := Failure.bind_eq_ok_iff.mp h
  obtain ⟨included, hincluded, h⟩ := Failure.bind_eq_ok_iff.mp h
  obtain ⟨active, hactive, h⟩ := Failure.bind_eq_ok_iff.mp h
  dsimp only at h
  split at h
  · next hlength =>
    obtain ⟨defaults, -, h⟩ := Failure.bind_eq_ok_iff.mp h
    cases h
    exact ⟨active, activated, included, defaults.map .fallback, hactive, hactivated, hincluded,
      rfl, rfl, fun _ => hlength⟩
  · cases h
    refine ⟨active, activated, included, [], hactive, hactivated, hincluded, rfl, ?_,
      fun h => absurd rfl h⟩
    rw [List.append_nil]
    rfl

section

variable {active : List String} {activated included : List Profile}
  (hactivated : ∀ p ∈ activated, ∃ name, p = .requested name)
  (hincluded : ∀ p ∈ included, ∃ name, p = .requested name)

private theorem requested_mem {name : String}
    (hprofiles : ∀ p ∈ profiles, ∃ name, p = .requested name)
    (h : (Profile.requested name).isIn profiles = true) : .requested name ∈ profiles := by
  obtain ⟨p, hp, hname⟩ := List.mem_map.mp (Profile.isIn_iff.mp h)
  obtain ⟨other, rfl⟩ := hprofiles p hp
  cases hname
  exact hp

include hactivated hincluded in
private theorem requested_mem_opening {name : String} (hname : name ∈ active) :
    .requested name ∈ (opening active activated included).1.pending := by
  refine mem_pending_of_open rfl ?_ rfl
  by_cases hin : (Profile.requested name).isIn activated = true
  · exact .inr (requested_mem hactivated hin)
  · refine .inl (List.mem_append.mpr ?_)
    by_cases hin' : (Profile.requested name).isIn included = true
    · exact .inr (requested_mem hincluded hin')
    · refine .inl (List.mem_cons_of_mem _ (List.mem_filter.mpr ⟨?_, by simp [hin, hin']⟩))
      exact List.mem_map_of_mem hname

include hactivated hincluded in
private theorem firm_opening : (opening active activated included).1.Firm := by
  refine Firm.activate ⟨fun p hp => ?_, fun p hp => by cases hp⟩ activated
    fun p hp => isFallback_of_requested (hactivated p hp)
  rcases List.mem_append.mp hp with hp | hp
  · rcases List.mem_cons.mp hp with rfl | hp
    · rfl
    · obtain ⟨name, -, rfl⟩ := List.mem_map.mp (List.mem_filter.mp hp).1
      rfl
  · exact isFallback_of_requested (hincluded p hp)

end

/-- Where only one profile waits before fallbacks are considered, no profile was named. -/
private theorem eq_nil_of_opening {active : List String} {activated included : List Profile}
    (hactivated : ∀ p ∈ activated, ∃ name, p = .requested name)
    (hincluded : ∀ p ∈ included, ∃ name, p = .requested name)
    (hlength : (opening active activated included).1.pending.length = 1) :
    active = [] ∧ activated = [] ∧ included = [] := by
  obtain ⟨only, honly⟩ := List.length_eq_one_iff.mp hlength
  have hunscoped : .unscoped ∈ (opening active activated included).1.pending :=
    mem_pending_of_open rfl (.inl (by simp)) rfl
  have hnone (name : String) :
      .requested name ∉ (opening active activated included).1.pending := by
    intro hname
    rw [honly, List.mem_singleton] at hunscoped hname
    cases hunscoped.trans hname.symm
  have hnil {profiles : List Profile} (hasked : ∀ p ∈ profiles, ∃ name, p = .requested name)
      (hwaits : ∀ p ∈ profiles, p.isFallback = false →
        p ∈ (opening active activated included).1.pending) : profiles = [] := by
    refine List.eq_nil_iff_forall_not_mem.mpr fun p hp => ?_
    obtain ⟨name, rfl⟩ := hasked p hp
    exact hnone name (hwaits _ hp rfl)
  refine ⟨List.eq_nil_iff_forall_not_mem.mpr fun name hname => ?_, hnil hactivated fun p hp hfirm =>
    mem_pending_of_open rfl (.inr hp) hfirm, hnil hincluded fun p hp hfirm => ?_⟩
  · exact hnone name (requested_mem_opening hactivated hincluded hname)
  · exact mem_pending_of_open rfl (.inl (List.mem_append_right _ hp)) hfirm

/-- A load begins with a queue in which the active profiles wait. Where there are any, no fallback
waits. -/
theorem start_active {env : Environment} {events : List Event}
    (h : start env = .ok (queue, events)) :
    ∃ active, env.active = .ok active ∧
      (active ≠ [] → (∀ name ∈ active, .requested name ∈ queue.pending) ∧ queue.Firm) := by
  obtain ⟨active, activated, included, fallbacks, hactive, hactivated, hincluded, -, rfl,
    hlength⟩ := start_cases h
  replace hactivated := Environment.requested_of_profilesNamedBy hactivated
  replace hincluded := Environment.requested_of_profilesNamedBy hincluded
  refine ⟨active, hactive, fun hsome => ?_⟩
  have hnone : fallbacks = [] := by
    by_contra hfallbacks
    exact hsome (eq_nil_of_opening hactivated hincluded (hlength hfallbacks)).1
  rw [hnone, List.append_nil]
  exact ⟨fun name hname => requested_mem_opening hactivated hincluded hname,
    firm_opening hactivated hincluded⟩

/-- A load begins with a queue in which a fallback waits only if no profile is active, activated or
included. -/
theorem start_fallback {env : Environment} {events : List Event}
    (h : start env = .ok (queue, events)) (hp : p ∈ queue.pending)
    (hfallback : p.isFallback = true) :
    env.active = .ok [] ∧ env.profilesNamedBy Key.active = .ok [] ∧
      env.profilesNamedBy Key.includes = .ok [] := by
  obtain ⟨active, activated, included, fallbacks, hactive, hactivated, hincluded, -, rfl,
    hlength⟩ := start_cases h
  have hasked := Environment.requested_of_profilesNamedBy hactivated
  have hasked' := Environment.requested_of_profilesNamedBy hincluded
  have hadded : p ∈ fallbacks := by
    refine (List.mem_append.mp hp).resolve_left fun hopening => ?_
    rw [(firm_opening hasked hasked').1 p hopening] at hfallback
    cases hfallback
  obtain ⟨rfl, rfl, rfl⟩ := eq_nil_of_opening hasked hasked' (hlength (List.ne_nil_of_mem hadded))
  exact ⟨hactive, hactivated, hincluded⟩

/-- A load begins with a queue in which the profiles wait that it reports as activated. -/
theorem start_activated {env : Environment} {events : List Event} {names : List String}
    (h : start env = .ok (queue, events)) (hevent : .activated names ∈ events) :
    ∀ name ∈ names, .requested name ∈ queue.pending := by
  obtain ⟨active, activated, included, fallbacks, -, hactivated, -, rfl, rfl, -⟩ := start_cases h
  intro name hname
  exact List.mem_append_left _ (mem_pending_of_activated
    (Environment.requested_of_profilesNamedBy hactivated) hevent hname)

/-! ### The profiles with which a load ends -/

/-- A load ends with the profiles that were asked for and are done, after those that the default
properties name. -/
theorem finalActive_ok {defaults : Option Source} {env : Environment} {active : List String}
    (h : queue.finalActive defaults env = .ok active) :
    ∃ named, active = (named ++ queue.processedNames).eraseDups := by
  unfold finalActive at h
  cases defaults with
  | none =>
    cases h
    exact ⟨[], rfl⟩
  | some source =>
    obtain ⟨included, -, h⟩ := Failure.bind_eq_ok_iff.mp h
    dsimp only at h
    split at h
    · cases h
      exact ⟨included.getD [], by simp⟩
    · obtain ⟨activated, -, h⟩ := Failure.bind_eq_ok_iff.mp h
      cases h
      exact ⟨included.getD [] ++ activated.getD [], rfl⟩

end ProfileQueue

end LayeredConfig
