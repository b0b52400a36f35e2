import LayeredConfig.Proofs.Load.Visits

/-!
# What the memo of a load keeps

A load reads a resource once for each format. What its memo keeps was read with the format of that
index, at a location where the load looks with that format, and with the references replaced by
the values of the chain, which stays as it is while a load runs. A visit that finds a resource
leaves its documents in the memo.

## Main definitions

* `Plan.Reads`: a look at a location reads with a format.
* `DocumentMemo.Faithful`: a memo keeps what the resources hold.

## Main results

* `Loader.Course.faithful_memo`: the memo with which a load ends is faithful.
* `Run.exists_read_of_visit`: a visit leaves the documents of its resource in the memo.
-/

namespace LayeredConfig

/-- References stand for the values of the chain. -/
theorem Environment.resolve_congr {env other : Environment} (h : env.chain = other.chain) :
    env.resolve = other.resolve := by
  funext text
  rw [resolve, h, resolve]

/-- Some look at the location reads with the format of the index. -/
def Plan.Reads (plan : Plan) (index : Nat) (location : String) : Prop :=
  ∃ processed profile root, ∃ probe ∈ plan.locationProbes processed profile root,
    probe.index = some index ∧ probe.location = location

/-- What a memo keeps of a resource was read at a location of the resource. -/
def DocumentMemo.Faithful (ctx : LoadContext) (resolve : String → Except Failure String)
    (memo : DocumentMemo) : Prop :=
  ∀ index identity documents, memo.entries.lookup (index, identity) = some documents →
    ∃ location format, ctx.plan.Reads index location ∧
      (ctx.store.resource location).identity = identity ∧
      ctx.plan.registry.get? index = some format ∧
      Document.load format (Run.sourceName location) (ctx.store.resource location) resolve =
        .ok documents

namespace Run

variable {ctx : LoadContext} {resolve : String → Except Failure String} {run after last : Run}
  {probe : Probe}

private theorem memo_choose (run : Run) (pass : Pass) (selector : Profile)
    (documents : List (Document × Nat)) :
    (run.choose pass selector documents).1.memo = run.memo := by
  induction documents generalizing run with
  | nil => rfl
  | cons document documents ih =>
    unfold choose
    split
    · rfl
    · exact ih run
    · have hrest := ih (run.follow document.1)
      split <;> next heq =>
        rw [heq] at hrest
        exact hrest

private theorem memo_adopt (run : Run) (pass : Pass) (profile : Profile) (probe : Probe)
    (documents : List Document) :
    (run.adopt pass profile probe documents).1.memo = run.memo := by
  have hchoose := memo_choose run pass probe.selector documents.zipIdx
  unfold adopt
  split <;> next heq =>
    rw [heq] at hchoose
    exact hchoose

/-- Reading the resource of a probe leaves the memo. -/
def Reads (run : Run) (ctx : LoadContext) (probe : Probe) (memo : DocumentMemo) : Prop :=
  ∃ index format documents, probe.index = some index ∧
    ctx.plan.registry.get? index = some format ∧
    run.memo.get index format (sourceName probe.location) (ctx.store.resource probe.location)
      run.env.resolve = .ok (documents, memo)

private theorem memo_examine {store : Store} {format : Format} {index : Nat} {pass : Pass}
    {profile : Profile} {failure : Option Failure}
    (h : run.examine store format index pass profile probe = (after, failure)) :
    (∃ documents, run.memo.get index format (sourceName probe.location)
      (store.resource probe.location) run.env.resolve = .ok (documents, after.memo)) ∨
    after.memo = run.memo ∧ ((store.resource probe.location).isThere = true →
      (store.resource probe.location).extension?.isSome = true → failure ≠ none) := by
  unfold examine at h
  dsimp only at h
  split at h
  · next hmissing =>
    cases h
    exact .inr ⟨rfl, fun hthere => by simp [hthere] at hmissing⟩
  · split at h
    · next hnone =>
      cases h
      exact .inr ⟨rfl, fun _ hextension => by simp_all⟩
    · split at h
      · cases h
        exact .inr ⟨rfl, fun _ _ => by simp⟩
      · next documents later hget =>
        refine .inl ⟨documents, ?_⟩
        split at h
        · cases h
          exact hget
        · have hmemo := memo_adopt { run with memo := later } pass profile probe documents
          rw [h] at hmemo
          rw [hmemo]
          exact hget

/-- A visit reads its resource, or it leaves the memo as it is. It reads what is there and has an
extension, unless it fails. -/
private theorem memo_visit {pass : Pass} {profile : Profile} {failure : Option Failure}
    (h : run.visit ctx pass profile probe = (after, failure)) :
    run.Reads ctx probe after.memo ∨
    after.memo = run.memo ∧ ((ctx.store.resource probe.location).isThere = true →
      (ctx.store.resource probe.location).extension?.isSome = true → failure ≠ none) := by
  unfold visit at h
  split at h
  · cases h
    exact .inr ⟨rfl, fun _ _ => by simp⟩
  · next index hindex =>
    split at h
    · cases h
      exact .inr ⟨rfl, fun _ _ => by simp⟩
    · next format hformat =>
      split at h
      · next examined hexamine =>
        cases h
        refine (memo_examine hexamine).imp_left ?_
        rintro ⟨documents, hget⟩
        exact ⟨index, format, documents, hindex, hformat, hget⟩
      · next examined first hexamine =>
        cases h
        rcases memo_examine hexamine with ⟨documents, hget⟩ | ⟨hmemo, -⟩
        · exact .inl ⟨index, format, documents, hindex, hformat, hget⟩
        · exact .inr ⟨hmemo, fun _ _ => by simp⟩

/-- A visit leaves the documents of its resource in the memo. -/
theorem exists_read_of_visit {pass : Pass} {profile : Profile}
    (h : run.visit ctx pass profile probe = (after, none))
    (hthere : (ctx.store.resource probe.location).isThere = true)
    (hextension : (ctx.store.resource probe.location).extension?.isSome = true) :
    ∃ index documents, probe.index = some index ∧
      after.memo.entries.lookup (index, (ctx.store.resource probe.location).identity) =
        some documents := by
  rcases memo_visit h with ⟨index, format, documents, hindex, -, hget⟩ | ⟨-, hfails⟩
  · exact ⟨index, documents, hindex, (DocumentMemo.get_ok hget).2⟩
  · exact absurd rfl (hfails hthere hextension)

/-- A visit that succeeds knows a format for its probe. -/
theorem exists_index_of_visit {pass : Pass} {profile : Profile}
    (h : run.visit ctx pass profile probe = (after, none)) :
    ∃ index format, probe.index = some index ∧ ctx.plan.registry.get? index = some format := by
  unfold visit at h
  split at h
  · cases h
  · next index hindex =>
    split at h
    · cases h
    · next format hformat => exact ⟨index, format, hindex, hformat⟩

/-! ### Faithful memos -/

private theorem Reads.faithful {memo : DocumentMemo} (h : run.Reads ctx probe memo)
    (hprobe : ∀ index, probe.index = some index → ctx.plan.Reads index probe.location)
    (hmemo : run.memo.Faithful ctx run.env.resolve) : memo.Faithful ctx run.env.resolve := by
  obtain ⟨index, format, documents, hindex, hformat, hget⟩ := h
  unfold DocumentMemo.get at hget
  split at hget
  · cases hget
    exact hmemo
  · obtain ⟨loaded, hload, hget⟩ := Failure.bind_eq_ok_iff.mp hget
    cases hget
    intro other identity kept hkept
    rw [List.lookup_cons] at hkept
    split at hkept
    · next hkey =>
      cases hkept
      obtain ⟨rfl, rfl⟩ := Prod.mk.inj (beq_iff_eq.mp hkey)
      exact ⟨probe.location, format, hprobe other hindex, rfl, hformat, hload⟩
    · exact hmemo other identity kept hkept

/-- A visit keeps a memo faithful. -/
theorem faithful_visit (pass : Pass) (profile : Profile)
    (hprobe : ∀ index, probe.index = some index → ctx.plan.Reads index probe.location)
    (h : run.memo.Faithful ctx run.env.resolve) :
    (run.visit ctx pass profile probe).1.memo.Faithful ctx run.env.resolve := by
  rcases memo_visit (Prod.eta (run.visit ctx pass profile probe)).symm with hreads | ⟨hmemo, -⟩
  · exact hreads.faithful hprobe h
  · rwa [hmemo]

private theorem faithful_visitAll (pass : Pass) (profile : Profile) {probes : List Probe}
    (hprobes : ∀ probe ∈ probes, ∀ index, probe.index = some index →
      ctx.plan.Reads index probe.location)
    (h : run.memo.Faithful ctx run.env.resolve) :
    (run.visitAll ctx pass profile probes).1.memo.Faithful ctx run.env.resolve := by
  induction probes generalizing run with
  | nil => exact h
  | cons probe probes ih =>
    have hvisit := faithful_visit pass profile (hprobes probe List.mem_cons_self) h
    have hsteady := steady_visit run ctx pass profile probe
    unfold visitAll
    split
    · next heq =>
      rw [heq] at hvisit hsteady
      rw [← hsteady.1] at hvisit ⊢
      exact ih (fun other hother => hprobes other (List.mem_cons_of_mem _ hother)) hvisit
    · next heq =>
      rw [heq] at hvisit
      exact hvisit

/-- The looks for a profile read what they look at. -/
theorem reads_probes (plan : Plan) (processed : List Profile) (profile : Profile) :
    ∀ probe ∈ plan.probes processed profile, ∀ index, probe.index = some index →
      plan.Reads index probe.location := by
  intro probe hprobe index hindex
  obtain ⟨root, -, hprobe⟩ := List.mem_flatMap.mp hprobe
  exact ⟨_, _, root, probe, hprobe, hindex, rfl⟩

private theorem faithful_sweep (pass : Pass) (profile : Profile)
    (h : run.memo.Faithful ctx run.env.resolve) :
    (run.sweep ctx pass profile).1.memo.Faithful ctx run.env.resolve :=
  faithful_visitAll pass profile (reads_probes ctx.plan _ profile) h

/-- Processing a profile keeps a memo faithful, and the chain as it is. -/
theorem faithful_process (profile : Profile) (h : run.memo.Faithful ctx run.env.resolve) :
    (run.process ctx profile).1.env.chain = run.env.chain ∧
      (run.process ctx profile).1.memo.Faithful ctx
        (run.process ctx profile).1.env.resolve := by
  obtain ⟨names, hcoherent⟩ := exists_coherent ctx run
  have hchain := (coherent_process profile hcoherent).2.1
  refine ⟨hchain, ?_⟩
  rw [Environment.resolve_congr hchain]
  unfold process
  split
  · exact h
  · next env hannounce =>
    have hannounced : env.resolve = run.env.resolve :=
      Environment.resolve_congr (chain_announce hannounce)
    rw [← hannounced] at h ⊢
    have hrun : ({ run with env } : Run).memo.Faithful ctx env.resolve := h
    exact faithful_sweep .positive profile hrun

/-- A loop keeps a memo faithful, and the chain as it is. -/
private theorem Drains.faithful (h : Drains ctx run last)
    (hmemo : run.memo.Faithful ctx run.env.resolve) :
    last.env.chain = run.env.chain ∧ last.memo.Faithful ctx last.env.resolve := by
  induction h with
  | done hnext => exact ⟨rfl, hmemo⟩
  | @round run after last queue profile hnext hprocess hrest ih =>
    have hafter := @faithful_process ctx { run with queue } profile hmemo
    rw [hprocess] at hafter
    obtain ⟨hlast, hfaithful⟩ := ih hafter.2
    exact ⟨hlast.trans hafter.1, hfaithful⟩

end Run

namespace Loader

variable {loader : Loader} {store : Store} {env : Environment} {report : Report}

/-- The memo with which a load ends is faithful. -/
theorem Course.faithful_memo (course : Course loader store env report) :
    (loader.lastRun store env).memo.Faithful (loader.context store report) (hide env).resolve := by
  have hstart : (Run.start (hide env) course.queue course.events).memo.Faithful
      (loader.context store report) (hide env).resolve := by
    simp [Run.start, DocumentMemo.Faithful]
  obtain ⟨hchain, hdrained⟩ := course.drains.faithful hstart
  have hresolve : course.drained.env.resolve = (hide env).resolve :=
    Environment.resolve_congr hchain
  have hsweep := Run.faithful_sweep .negative .unscoped hdrained
  rw [course.sweeps, hresolve] at hsweep
  exact hsweep

end Loader

end LayeredConfig
