import LayeredConfig.Proofs.Load.Rounds
import Mathlib.Logic.Relation

/-!
# The steps of a load

A sweep moves on in steps: a location is skipped, the documents of a file are read, or some of
them are followed and picked up. It ends after a step, or it fails, and then documents may have
been followed that were not picked up. The loop moves on in rounds, each of which takes a profile
from the queue and sweeps for it. What every step and every round keeps is kept by a whole load,
whether or not it fails.

## Main definitions

* `Run.Step`, `Run.Walk`: what can happen in a sweep, and how it can go.
* `Run.Round`, `Run.Loop`: what happens between two looks at the queue, and how the loop can go.
* `Run.Invariant`: a property of runs that is kept by everything that happens in a load.

## Main results

* `Run.walk_sweep`: a sweep is a walk.
* `Run.loop_drain`: emptying the queue is a loop.
* `Run.Invariant.walk`, `Run.Invariant.rounds`, `Run.Invariant.loop`: an invariant holds all the
  way.
-/

namespace LayeredConfig

open Relation (ReflTransGen)

namespace DocumentMemo

/-- The documents of a resource were kept before, or they are read and kept now. -/
theorem get_cases {memo later : DocumentMemo} {index : Nat} {format : Format} {name : String}
    {resource : Resource} {resolve : String → Except Failure String} {documents : List Document}
    (h : memo.get index format name resource resolve = .ok (documents, later)) :
    (later = memo ∧ ((index, resource.identity), documents) ∈ memo.entries) ∨
      (Document.load format name resource resolve = .ok documents ∧
        later = ⟨((index, resource.identity), documents) :: memo.entries⟩) := by
  unfold get at h
  split at h
  · next found hfound =>
    cases h
    obtain ⟨above, below, hentries, -⟩ := List.lookup_eq_some_iff.mp hfound
    exact .inl ⟨rfl, by rw [hentries]; simp⟩
  · obtain ⟨loaded, hload, h⟩ := Failure.bind_eq_ok_iff.mp h
    cases h
    exact .inr ⟨hload, rfl⟩

end DocumentMemo

namespace Run

variable {ctx : LoadContext} {pass : Pass} {profile : Profile} {run after : Run}
  {documents : List Document}

/-! ### The steps of a sweep -/

/-- The memo of a run keeps a document. -/
def Keeps (run : Run) (document : Document) : Prop :=
  ∃ entry ∈ run.memo.entries, document ∈ entry.2

/-- What can happen in a sweep. -/
inductive Step (ctx : LoadContext) (pass : Pass) (profile : Profile) (run : Run) : Run → Prop
  /-- A location holds nothing to choose from. -/
  | skip (finding : Finding) (location : String) (hfinding : finding ≠ .loaded) :
      Step ctx pass profile run (run.record (.probed finding location profile.name?))
  /-- The documents of a location are asked for. -/
  | read {format : Format} {index : Nat} {location : String} {documents : List Document}
      {memo : DocumentMemo} (hformat : format ∈ ctx.plan.registry.formats)
      (hget : run.memo.get index format (sourceName location) (ctx.store.resource location)
        run.env.resolve = .ok (documents, memo)) :
      Step ctx pass profile run { run with memo }
  /-- Documents of a file are followed and picked up. -/
  | pickUp (location : String) (chosen : List (Document × Nat)) (hchosen : chosen ≠ [])
      (hkept : ∀ entry ∈ chosen, run.Keeps entry.1) :
      Step ctx pass profile run
        ((((chosen.map Prod.fst).foldl Run.follow run).pickUp pass profile location chosen).record
          (.probed .loaded location profile.name?))

/-- How a sweep can go. -/
inductive Walk (ctx : LoadContext) (pass : Pass) (profile : Profile) (run : Run) : Progress → Prop
  /-- It takes its steps. -/
  | ends {reached : Run} (hsteps : ReflTransGen (Step ctx pass profile) run reached) :
      Walk ctx pass profile run (reached, none)
  /-- It fails after some steps. Documents of the last file may have been followed. -/
  | fails {reached : Run} (hsteps : ReflTransGen (Step ctx pass profile) run reached)
      (documents : List Document) (hkept : ∀ document ∈ documents, reached.Keeps document)
      (failure : Failure) :
      Walk ctx pass profile run (documents.foldl Run.follow reached, some failure)

private theorem Walk.broken (run : Run) (failure : Failure) :
    Walk ctx pass profile run (run, some failure) :=
  .fails .refl [] (fun _ h => by cases h) failure

private theorem Walk.prepend {progress : Progress}
    (hsteps : ReflTransGen (Step ctx pass profile) run after)
    (hwalk : Walk ctx pass profile after progress) : Walk ctx pass profile run progress := by
  cases hwalk with
  | ends hrest => exact .ends (hsteps.trans hrest)
  | fails hrest documents hkept failure => exact .fails (hsteps.trans hrest) documents hkept failure

private theorem choose_follows {selector : Profile} {documents : List (Document × Nat)}
    {outcome : Except Failure (List (Document × Nat))}
    (h : run.choose pass selector documents = (after, outcome)) :
    ∃ followed : List Document, followed ⊆ documents.map Prod.fst ∧
      after = followed.foldl Run.follow run ∧
      ∀ chosen, outcome = .ok chosen → followed = chosen.map Prod.fst := by
  induction documents generalizing run outcome with
  | nil =>
    cases h
    exact ⟨[], List.nil_subset _, rfl, fun chosen h => by cases h; rfl⟩
  | cons entry documents ih =>
    unfold choose at h
    split at h
    · cases h
      exact ⟨[], List.nil_subset _, rfl, fun chosen h => by cases h⟩
    · obtain ⟨followed, hsub, hrest⟩ := ih h
      exact ⟨followed, List.subset_cons_of_subset _ hsub, hrest⟩
    · split at h
      · next hrest =>
        cases h
        obtain ⟨followed, hsub, rfl, hchosen⟩ := ih hrest
        refine ⟨entry.1 :: followed, List.cons_subset_cons _ hsub, rfl, fun chosen h => ?_⟩
        cases h
        rw [List.map_cons, hchosen _ rfl]
      · next hrest =>
        cases h
        obtain ⟨followed, hsub, rfl, -⟩ := ih hrest
        exact ⟨entry.1 :: followed, List.cons_subset_cons _ hsub, rfl, fun chosen h => by cases h⟩

private theorem walk_adopt (profile : Profile) (probe : Probe)
    (hkept : ∀ document ∈ documents, run.Keeps document) :
    Walk ctx pass profile run (run.adopt pass profile probe documents) := by
  unfold adopt
  generalize hchoose : run.choose pass probe.selector documents.zipIdx = choice
  obtain ⟨after, outcome⟩ := choice
  obtain ⟨followed, hsub, rfl, hchosen⟩ := choose_follows hchoose
  rw [List.zipIdx_map_fst] at hsub
  cases outcome with
  | error failure =>
    exact .fails .refl followed (fun document hmem => hkept document (hsub hmem)) failure
  | ok chosen =>
    obtain rfl := hchosen chosen rfl
    cases chosen with
    | nil => exact .ends .refl
    | cons entry chosen =>
      refine .ends (.single (.pickUp probe.location (entry :: chosen) (List.cons_ne_nil _ _) ?_))
      exact fun other hother => hkept other.1 (hsub (List.mem_map_of_mem hother))

private theorem walk_examine (run : Run) {format : Format} (index : Nat) (pass : Pass)
    (profile : Profile) (probe : Probe) (hformat : format ∈ ctx.plan.registry.formats) :
    Walk ctx pass profile run (run.examine ctx.store format index pass profile probe) := by
  unfold examine
  dsimp only
  split
  · exact .ends (.single (.skip .missing probe.location (by simp)))
  · split
    · exact .ends (.single (.skip .withoutExtension probe.location (by simp)))
    · split
      · exact .broken run _
      · next documents memo hget =>
        have hread : Step ctx pass profile run { run with memo } := .read hformat hget
        refine Walk.prepend (.single hread) ?_
        split
        · exact .ends (.single (.skip .empty probe.location (by simp)))
        · refine walk_adopt profile probe fun document hmem => ?_
          rcases DocumentMemo.get_cases hget with ⟨rfl, hentry⟩ | ⟨-, rfl⟩
          · exact ⟨_, hentry, hmem⟩
          · exact ⟨_, List.mem_cons_self, hmem⟩

private theorem walk_visit (run : Run) (ctx : LoadContext) (pass : Pass) (profile : Profile)
    (probe : Probe) :
    Walk ctx pass profile run (run.visit ctx pass profile probe) := by
  unfold visit
  split
  · exact .broken run _
  · next index _ =>
    split
    · exact .broken run _
    · next format hformat =>
      have hwalk := walk_examine run index pass profile probe (List.mem_of_getElem? hformat)
      split
      · next heq => rwa [heq] at hwalk
      · next heq =>
        rw [heq] at hwalk
        -- The location of the probe is added to the failure, the run stays.
        cases hwalk with
        | fails hsteps documents hkept => exact .fails hsteps documents hkept _

private theorem walk_visitAll (run : Run) (pass : Pass) (profile : Profile)
    (probes : List Probe) :
    Walk ctx pass profile run (run.visitAll ctx pass profile probes) := by
  induction probes generalizing run with
  | nil => exact .ends .refl
  | cons probe probes ih =>
    have hwalk := walk_visit run ctx pass profile probe
    unfold visitAll
    split
    · next visited heq =>
      rw [heq] at hwalk
      cases hwalk with
      | ends hsteps => exact (ih visited).prepend hsteps
    · next heq => rwa [heq] at hwalk

/-- A sweep is a walk. -/
theorem walk_sweep (run : Run) (ctx : LoadContext) (pass : Pass) (profile : Profile) :
    Walk ctx pass profile run (run.sweep ctx pass profile) :=
  walk_visitAll run pass profile _

/-- What every step and every document that is followed keeps is kept by a walk. -/
theorem Walk.keeps {P : Run → Prop} {progress : Progress} (h : Walk ctx pass profile run progress)
    (hstep : ∀ ⦃before after⦄, Step ctx pass profile before after → P before → P after)
    (hfollow : ∀ ⦃before document⦄, before.Keeps document → P before → P (before.follow document))
    (hrun : P run) : P progress.1 := by
  have hreached {reached : Run} (hsteps : ReflTransGen (Step ctx pass profile) run reached) :
      P reached := by
    induction hsteps with
    | refl => exact hrun
    | tail _ hlast ih => exact hstep hlast ih
  cases h with
  | ends hsteps => exact hreached hsteps
  | @fails reached hsteps documents hkept =>
    replace hsteps := hreached hsteps
    induction documents generalizing reached with
    | nil => exact hsteps
    | cons document documents ih =>
      refine ih (fun other hother => ?_) (hfollow (hkept document List.mem_cons_self) hsteps)
      exact hkept other (List.mem_cons_of_mem _ hother)

/-! ### The rounds of the loop -/

/-- A profile is made active, and then its documents are looked for. -/
theorem process_cases (run : Run) (ctx : LoadContext) (profile : Profile) :
    (∃ failure, announce run.env profile = .error failure ∧
      run.process ctx profile = (run, some failure)) ∨
    ∃ env, announce run.env profile = .ok env ∧
      Walk ctx .positive profile { run with env } (run.process ctx profile) := by
  unfold process
  cases announce run.env profile with
  | error failure => exact .inl ⟨failure, rfl, rfl⟩
  | ok env => exact .inr ⟨env, rfl, walk_sweep { run with env } ctx .positive profile⟩

/-- A profile is taken from the queue, processed and counted as done. -/
inductive Round (ctx : LoadContext) (run : Run) : Run → Prop
  | mk {queue : ProfileQueue} {profile : Profile} {after : Run}
      (hnext : run.queue.next = (some profile, queue))
      (hprocess : ({ run with queue } : Run).process ctx profile = (after, none)) :
      Round ctx run (after.markProcessed profile)

/-- How the loop can go. -/
inductive Loop (ctx : LoadContext) (run : Run) : Progress → Prop
  /-- The queue is empty after some rounds. -/
  | ends {reached : Run} {queue : ProfileQueue} (hrounds : ReflTransGen (Round ctx) run reached)
      (hnext : reached.queue.next = (none, queue)) :
      Loop ctx run ({ reached with queue }, none)
  /-- The profile after some rounds cannot be processed. -/
  | fails {reached after : Run} {queue : ProfileQueue} {profile : Profile} {failure : Failure}
      (hrounds : ReflTransGen (Round ctx) run reached)
      (hnext : reached.queue.next = (some profile, queue))
      (hprocess : ({ reached with queue } : Run).process ctx profile = (after, some failure)) :
      Loop ctx run (after, some failure)

private theorem loop_of_drainWithin {looks : Nat} {progress : Progress}
    (h : drainWithin ctx looks run = some progress) : Loop ctx run progress := by
  induction looks generalizing run with
  | zero => cases h
  | succ looks ih =>
    rw [drainWithin] at h
    split at h
    · next hnext =>
      cases h
      exact .ends .refl hnext
    · next hnext =>
      split at h
      · next hprocess =>
        cases h
        exact .fails .refl hnext hprocess
      · next hprocess =>
        have hround : Round ctx run _ := .mk hnext hprocess
        cases ih h with
        | ends hrounds hnone => exact .ends (.head hround hrounds) hnone
        | fails hrounds hsome hfailure => exact .fails (.head hround hrounds) hsome hfailure

/-- Emptying the queue is a loop. -/
theorem loop_drain {origin : Run} (h : run.Coherent ctx (origin.knownNames ctx)) :
    Loop ctx run (drain ctx origin run h) :=
  loop_of_drainWithin (drainWithin_eq_drain h (Nat.lt_succ_self _))

/-! ### Invariants of a load -/

/-- A property of runs, and of the profiles that are being processed, that is kept by everything
that happens in a load. -/
structure Invariant (ctx : LoadContext) (P : List Profile → Run → Prop) : Prop where
  follow : ∀ {busy run document}, run.Keeps document → P busy run → P busy (run.follow document)
  step : ∀ {busy pass profile run after}, Step ctx pass profile run after → P busy run →
    P busy after
  announce : ∀ {busy run} (env : Environment), P busy run → P busy { run with env }
  next : ∀ {run queue profile}, run.queue.next = (some profile, queue) → P [] run →
    P [profile] { run with queue }
  done : ∀ {run profile}, P [profile] run → P [] (run.markProcessed profile)
  drained : ∀ {run queue}, run.queue.next = (none, queue) → P [] run → P [] { run with queue }

namespace Invariant

variable {P : List Profile → Run → Prop}

theorem walk {progress : Progress} (h : Invariant ctx P) (busy : List Profile)
    (hwalk : Walk ctx pass profile run progress) (hrun : P busy run) : P busy progress.1 :=
  hwalk.keeps (fun _ _ hstep => h.step hstep) (fun _ _ hkept => h.follow hkept) hrun

theorem process (h : Invariant ctx P) (busy : List Profile) (profile : Profile)
    (hrun : P busy run) :
    P busy (run.process ctx profile).1 := by
  rcases process_cases run ctx profile with ⟨failure, -, hprocess⟩ | ⟨env, -, hwalk⟩
  · rwa [hprocess]
  · exact h.walk busy hwalk (h.announce env hrun)

theorem rounds (h : Invariant ctx P) (hrounds : ReflTransGen (Round ctx) run after)
    (hrun : P [] run) : P [] after := by
  induction hrounds with
  | refl => exact hrun
  | tail _ hround ih =>
    cases hround with
    | @mk queue profile processed hnext hprocess =>
      have hprocessed := h.process [profile] profile (h.next hnext ih)
      rw [hprocess] at hprocessed
      exact h.done hprocessed

theorem loop {progress : Progress} (h : Invariant ctx P) (hloop : Loop ctx run progress)
    (hrun : P [] run) : ∃ busy, P busy progress.1 := by
  cases hloop with
  | ends hrounds hnext => exact ⟨[], h.drained hnext (h.rounds hrounds hrun)⟩
  | @fails _ _ _ profile _ hrounds hnext hprocess =>
    have hprocessed := h.process [profile] profile (h.next hnext (h.rounds hrounds hrun))
    rw [hprocess] at hprocessed
    exact ⟨[profile], hprocessed⟩

end Invariant

end Run

end LayeredConfig
