import LayeredConfig.Load.Request
import LayeredConfig.Load.Run

/-!
# Emptying the queue

A load processes profile after profile until none is left. Each processed profile may ask for
more, but only the files of the store can ask, and what they ask for depends on the chain,
which stays as it is. So the profiles that can ever wait are among finitely many known names,
and every round takes one of them away.

## Main definitions

* `Run.Coherent`: the profiles that wait, and those that the documents read so far ask for,
  have known names.
* `Run.drain`: the run with which the queue is empty, or with which a failure stopped it.

## Main results

* `Run.coherent_process`: processing a profile keeps a run coherent.
-/

namespace LayeredConfig

/-- The names of a list of profiles; the unscoped profile counts as a name of its own. -/
abbrev profileNames (profiles : List Profile) : List (Option String) :=
  profiles.map Profile.name?

theorem Profile.isIn_iff {p : Profile} {profiles : List Profile} :
    p.isIn profiles = true ↔ p.name? ∈ profileNames profiles := by
  simp only [isIn, List.any_eq_true, same_iff, List.mem_map]
  constructor
  · rintro ⟨q, hq, h⟩
    exact ⟨q, hq, h.symm⟩
  · rintro ⟨q, hq, h⟩
    exact ⟨q, hq, h.symm⟩

namespace ProfileQueue

variable {queue : ProfileQueue} {profiles : List Profile} {p : Profile}

theorem mem_pending_activate (h : p ∈ (queue.activate profiles).1.pending) :
    p ∈ queue.pending ∨ p ∈ profiles := by
  unfold activate at h
  split at h
  · exact .inl h
  · split at h
    · exact .inl h
    · exact List.mem_append.mp (List.mem_filter.mp h).1

theorem mem_pending_includeFirst (h : p ∈ (queue.includeFirst profiles).1.pending) :
    p ∈ queue.pending ∨ p ∈ profiles := by
  unfold includeFirst at h
  split at h
  · exact .inl h
  · exact (List.mem_append.mp (List.mem_filter.mp h).1).symm

@[simp] theorem processed_activate : (queue.activate profiles).1.processed = queue.processed := by
  unfold activate
  split
  · rfl
  · split <;> rfl

@[simp] theorem processed_includeFirst :
    (queue.includeFirst profiles).1.processed = queue.processed := by
  unfold includeFirst
  split <;> rfl

theorem next_some {rest : ProfileQueue} (h : queue.next = (some p, rest)) :
    p ∈ queue.pending ∧ p.isIn queue.processed = false ∧ rest.processed = queue.processed ∧
      ∀ q ∈ rest.pending, q ∈ queue.pending := by
  unfold next at h
  split at h
  · cases h
  · next profile pending heq =>
    cases h
    have hsub : (p :: pending).Sublist queue.pending := heq ▸ List.dropWhile_sublist _
    have hhead := List.head?_dropWhile_not (fun p => p.isIn queue.processed) queue.pending
    refine ⟨hsub.subset (by simp), ?_, rfl, fun q hq => hsub.subset (by simp [hq])⟩
    simpa [heq] using hhead

theorem processed_markProcessed (h : p.isIn queue.processed = false) :
    (queue.markProcessed p).processed = queue.processed ++ [p] := by
  simp [markProcessed, h]

@[simp] theorem pending_markProcessed : (queue.markProcessed p).pending = queue.pending := by
  unfold markProcessed
  split <;> rfl

end ProfileQueue

/-! ### Coherent runs -/

/-- The documents ask only for profiles with the given names. -/
def AsksOnlyFor (names : List (Option String)) (documents : List Document) : Prop :=
  ∀ document ∈ documents, ∀ p ∈ document.requests, p.name? ∈ names

/-- The profiles that wait, and those that the documents read so far ask for, have names among
`names`. So has every profile that the store can ask for while the chain stays as it is. -/
structure Run.Coherent (ctx : LoadContext) (names : List (Option String)) (run : Run) :
    Prop where
  requestable : ∀ p ∈ ctx.plan.registry.requestable ctx.store.contents run.env.resolve,
    p.name? ∈ names
  pending : ∀ p ∈ run.queue.pending, p.name? ∈ names
  memo : ∀ entry ∈ run.memo.entries, AsksOnlyFor names entry.2

namespace Run

variable {ctx : LoadContext} {names : List (Option String)} {run : Run}

/-- What a step of a run leaves as it is: the environment and the profiles that are done. -/
def Steady (before after : Run) : Prop :=
  after.env = before.env ∧ after.queue.processed = before.queue.processed

theorem Steady.refl (run : Run) : Steady run run := ⟨rfl, rfl⟩

theorem Steady.trans {a b c : Run} (h : Steady a b) (h' : Steady b c) : Steady a c :=
  ⟨h'.1.trans h.1, h'.2.trans h.2⟩

theorem Coherent.of_env {before after : Run} (h : before.Coherent ctx names)
    (henv : after.env.resolve = before.env.resolve)
    (hpending : ∀ p ∈ after.queue.pending, p.name? ∈ names)
    (hmemo : ∀ entry ∈ after.memo.entries, AsksOnlyFor names entry.2) :
    after.Coherent ctx names :=
  ⟨by rw [henv]; exact h.requestable, hpending, hmemo⟩

theorem coherent_record (event : Event) (h : run.Coherent ctx names) :
    (run.record event).Coherent ctx names :=
  h.of_env rfl h.pending h.memo

theorem coherent_follow {document : Document} (h : run.Coherent ctx names)
    (hd : ∀ p ∈ document.requests, p.name? ∈ names) :
    (run.follow document).Coherent ctx names := by
  refine h.of_env rfl (fun p hp => ?_) h.memo
  rcases ProfileQueue.mem_pending_includeFirst hp with hp | hp
  · rcases ProfileQueue.mem_pending_activate hp with hp | hp
    · exact h.pending p hp
    · exact hd p (List.mem_append_left _ hp)
  · exact hd p (List.mem_append_right _ hp)

theorem steady_follow (run : Run) (document : Document) : Steady run (run.follow document) := by
  simp [Steady, follow]

theorem choose_keeps (pass : Pass) (selector : Profile) (documents : List (Document × Nat))
    (hd : AsksOnlyFor names (documents.map Prod.fst)) (h : run.Coherent ctx names) :
    (run.choose pass selector documents).1.Coherent ctx names ∧
      Steady run (run.choose pass selector documents).1 := by
  induction documents generalizing run with
  | nil => exact ⟨h, .refl run⟩
  | cons document documents ih =>
    have hrest : AsksOnlyFor names (documents.map Prod.fst) :=
      fun d hd' => hd d (by simp_all)
    unfold choose
    split
    · exact ⟨h, .refl run⟩
    · exact ih hrest h
    · have hfollow : (run.follow document.1).Coherent ctx names :=
        coherent_follow h (hd document.1 (by simp))
      have := ih hrest hfollow
      split <;> next heq =>
        rw [heq] at this
        exact ⟨this.1, (steady_follow run document.1).trans this.2⟩

theorem adopt_keeps (pass : Pass) (profile : Profile) (probe : Probe) (documents : List Document)
    (hd : AsksOnlyFor names documents) (h : run.Coherent ctx names) :
    (run.adopt pass profile probe documents).1.Coherent ctx names ∧
      Steady run (run.adopt pass profile probe documents).1 := by
  have hd' : AsksOnlyFor names (documents.zipIdx.map Prod.fst) := by
    simpa using hd
  have := choose_keeps pass probe.selector documents.zipIdx hd' h
  unfold adopt
  split
  · next heq => rw [heq] at this; exact this
  · next heq => rw [heq] at this; exact this
  · next heq =>
    rw [heq] at this
    exact ⟨this.1.of_env rfl this.1.pending this.1.memo, this.2⟩

private theorem asksOnlyFor_get {format : Format} {index : Nat} {name location : String}
    {documents : List Document} {memo : DocumentMemo}
    (hformat : format ∈ ctx.plan.registry.formats) (h : run.Coherent ctx names)
    (hget : run.memo.get index format name (ctx.store.resource location) run.env.resolve =
      .ok (documents, memo)) :
    AsksOnlyFor names documents ∧ ∀ entry ∈ memo.entries, AsksOnlyFor names entry.2 := by
  unfold DocumentMemo.get at hget
  split at hget
  · next found hfound =>
    cases hget
    refine ⟨?_, h.memo⟩
    obtain ⟨l₁, l₂, hentries, -⟩ := List.lookup_eq_some_iff.mp hfound
    have hmem : ((index, (ctx.store.resource location).identity), documents) ∈
        run.memo.entries := by rw [hentries]; simp
    exact h.memo _ hmem
  · cases hload : Document.load format name (ctx.store.resource location) run.env.resolve with
    | error failure => simp [hload, bind, Except.bind] at hget
    | ok loaded =>
      simp only [hload, bind, Except.bind, pure, Except.pure, Except.ok.injEq,
        Prod.mk.injEq] at hget
      obtain ⟨rfl, rfl⟩ := hget
      have hloaded : AsksOnlyFor names loaded := fun document hdocument p hp =>
        h.requestable p (Document.requests_of_load hformat hload document hdocument p hp)
      refine ⟨hloaded, fun entry hentry => ?_⟩
      rcases List.mem_cons.mp hentry with rfl | hentry
      · exact hloaded
      · exact h.memo entry hentry

theorem examine_keeps {format : Format} (index : Nat) (pass : Pass) (profile : Profile)
    (probe : Probe) (hformat : format ∈ ctx.plan.registry.formats)
    (h : run.Coherent ctx names) :
    (run.examine ctx.store format index pass profile probe).1.Coherent ctx names ∧
      Steady run (run.examine ctx.store format index pass profile probe).1 := by
  unfold examine
  dsimp only
  split
  · exact ⟨coherent_record _ h, .refl run⟩
  · split
    · exact ⟨coherent_record _ h, .refl run⟩
    · split
      · exact ⟨h, .refl run⟩
      · next documents memo hget =>
        obtain ⟨hdocuments, hmemo⟩ := asksOnlyFor_get hformat h hget
        have hread : ({ run with memo } : Run).Coherent ctx names := h.of_env rfl h.pending hmemo
        split
        · exact ⟨coherent_record _ hread, .refl run⟩
        · exact adopt_keeps pass profile probe documents hdocuments hread

theorem visit_keeps (pass : Pass) (profile : Profile) (probe : Probe)
    (h : run.Coherent ctx names) :
    (run.visit ctx pass profile probe).1.Coherent ctx names ∧
      Steady run (run.visit ctx pass profile probe).1 := by
  unfold visit
  split
  · exact ⟨h, .refl run⟩
  · next index _ =>
    split
    · exact ⟨h, .refl run⟩
    · next format hformat =>
      have := examine_keeps index pass profile probe (List.mem_of_getElem? hformat) h
      split <;> next heq => rw [heq] at this; exact this

theorem visitAll_keeps (pass : Pass) (profile : Profile) (probes : List Probe)
    (h : run.Coherent ctx names) :
    (run.visitAll ctx pass profile probes).1.Coherent ctx names ∧
      Steady run (run.visitAll ctx pass profile probes).1 := by
  induction probes generalizing run with
  | nil => exact ⟨h, .refl run⟩
  | cons probe probes ih =>
    have hvisit := visit_keeps pass profile probe h
    unfold visitAll
    split
    · next heq =>
      rw [heq] at hvisit
      have := ih hvisit.1
      exact ⟨this.1, hvisit.2.trans this.2⟩
    · next heq => rw [heq] at hvisit; exact hvisit

/-- Activating a profile leaves the chain as it is. -/
theorem chain_announce {env env' : Environment} {profile : Profile}
    (h : announce env profile = .ok env') : env'.chain = env.chain := by
  unfold announce at h
  split at h
  · next name =>
    cases hactive : env.active with
    | error failure => simp [hactive, bind, Except.bind] at h
    | ok active =>
      simp only [hactive, bind, Except.bind] at h
      split at h
      · simp only [pure, Except.pure, Except.ok.injEq] at h; rw [h]
      · unfold Environment.addActive at h
        cases hvalid : Profile.validate name with
        | error failure => simp [hvalid, bind, Except.bind] at h
        | ok =>
          simp only [hvalid, hactive, bind, Except.bind, pure, Except.pure,
            Except.ok.injEq] at h
          rw [← h]
  · cases h; rfl

/-- Processing a profile keeps a run coherent, and changes neither the chain nor the profiles
that are done. -/
theorem coherent_process (profile : Profile) (h : run.Coherent ctx names) :
    (run.process ctx profile).1.Coherent ctx names ∧
      (run.process ctx profile).1.env.chain = run.env.chain ∧
      (run.process ctx profile).1.queue.processed = run.queue.processed := by
  unfold process
  split
  · exact ⟨h, rfl, rfl⟩
  · next env henv =>
    have hchain := chain_announce henv
    have hresolve : env.resolve = run.env.resolve := by
      funext text; simp [Environment.resolve, hchain]
    have hrun : ({ run with env } : Run).Coherent ctx names := h.of_env hresolve h.pending h.memo
    have := visitAll_keeps .positive profile (ctx.plan.probes run.queue.processed profile) hrun
    exact ⟨this.1, by rw [sweep, this.2.1]; exact hchain, this.2.2⟩

/-! ### The loop -/

/-- How many of the known names are not done. -/
def remaining (names : List (Option String)) (run : Run) : Nat :=
  (names.filter fun name => !(profileNames run.queue.processed).contains name).length

private theorem remaining_lt {after : Run} {profile : Profile} (hname : profile.name? ∈ names)
    (hnew : profile.isIn run.queue.processed = false)
    (hafter : after.queue.processed = run.queue.processed ++ [profile]) :
    after.remaining names < run.remaining names := by
  have hnot : profile.name? ∉ profileNames run.queue.processed := by
    rw [← Profile.isIn_iff, hnew]; simp
  have hsplit : (names.filter fun name => !(profileNames after.queue.processed).contains name) =
      (names.filter fun name => !(profileNames run.queue.processed).contains name).filter
        fun name => name != profile.name? := by
    rw [List.filter_filter]
    congr 1
    funext name
    rw [hafter]
    by_cases h : name = profile.name? <;> simp [h]
  unfold remaining
  rw [hsplit]
  refine List.length_filter_lt_length_iff_exists.mpr ⟨profile.name?, ?_, by simp⟩
  exact List.mem_filter.mpr ⟨hname, by simpa using hnot⟩

/-- A profile that is taken from the queue and counted as done takes one of the known names
away, whatever was done with it in between. -/
theorem Coherent.markProcessed {queue : ProfileQueue} {profile : Profile} {after : Run}
    (h : run.Coherent ctx names) (hnext : run.queue.next = (some profile, queue))
    (hafter : after.Coherent ctx names) (hkept : after.queue.processed = queue.processed) :
    (after.markProcessed profile).Coherent ctx names ∧
      (after.markProcessed profile).remaining names < run.remaining names := by
  obtain ⟨hmem, hnew, hprocessed, -⟩ := ProfileQueue.next_some hnext
  have hdone : after.queue.processed = run.queue.processed := hkept.trans hprocessed
  refine ⟨hafter.of_env rfl ?_ hafter.memo, remaining_lt (h.pending _ hmem) hnew ?_⟩
  · simpa [Run.markProcessed] using hafter.pending
  · simp only [Run.markProcessed]
    rw [ProfileQueue.processed_markProcessed (by rw [hdone]; exact hnew), hdone]

/-- A run whose queue gave a profile away. -/
theorem Coherent.next {queue : ProfileQueue} {profile : Profile} (h : run.Coherent ctx names)
    (hnext : run.queue.next = (some profile, queue)) :
    ({ run with queue } : Run).Coherent ctx names :=
  h.of_env rfl (fun p hp => h.pending p ((ProfileQueue.next_some hnext).2.2.2 p hp)) h.memo

/-- The run after a profile is taken from the queue, processed and counted as done. -/
theorem Coherent.afterRound {queue : ProfileQueue} {profile : Profile} {after : Run}
    (h : run.Coherent ctx names) (hnext : run.queue.next = (some profile, queue))
    (hprocess : ({ run with queue } : Run).process ctx profile = (after, none)) :
    (after.markProcessed profile).Coherent ctx names ∧
      (after.markProcessed profile).remaining names < run.remaining names := by
  have hkept := coherent_process profile (h.next hnext)
  rw [hprocess] at hkept
  exact h.markProcessed hnext hkept.1 hkept.2.2

/-- The names that can be known to a run: those that wait and those that the store can ask
for. -/
def knownNames (ctx : LoadContext) (run : Run) : List (Option String) :=
  profileNames (run.queue.pending ++
    ctx.plan.registry.requestable ctx.store.contents run.env.resolve)

/-- Processes the profiles of the queue until none is left or one fails. The names that are
known are those of the run `origin`, with which the load began. -/
def drain (ctx : LoadContext) (origin run : Run) (h : run.Coherent ctx (origin.knownNames ctx)) :
    Progress :=
  match hnext : run.queue.next with
  | (none, queue) => ({ run with queue }, none)
  | (some profile, queue) =>
    match hprocess : ({ run with queue } : Run).process ctx profile with
    | (after, some failure) => (after, some failure)
    | (after, none) =>
      drain ctx origin (after.markProcessed profile) (h.afterRound hnext hprocess).1
termination_by run.remaining (origin.knownNames ctx)
decreasing_by exact (h.afterRound hnext hprocess).2

/-- A run that has read nothing is coherent. -/
theorem coherent_of_memo_eq (hmemo : run.memo = {}) : run.Coherent ctx (run.knownNames ctx) where
  requestable p hp := by
    simp only [knownNames, List.map_append, List.mem_append]
    exact .inr (List.mem_map_of_mem hp)
  pending p hp := by
    simp only [knownNames, List.map_append, List.mem_append]
    exact .inl (List.mem_map_of_mem hp)
  memo entry hentry := by simp [hmemo] at hentry

end Run

end LayeredConfig
