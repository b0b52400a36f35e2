import LayeredConfig.Proofs.Load.Requests

/-!
# The active profiles after a load

A load that succeeds reports the profiles that are active from now on, and stores them in the
environment. Among them are the profiles that were active when it began, and all that were asked
for and processed. But an environment that stores no active profile takes them from its chain, and
the load may have put a source there that names some: then an empty report does not say what is
active.

## Main results

* `Loader.requested_of_active`: the profiles that are active when a load begins are processed.
* `Loader.activeNames_load`: the profiles that a load reports are those that it stores.
* `Loader.active_load_iff`: when the environment has the active profiles that a load reports.
-/

namespace LayeredConfig

namespace ProfileQueue

theorem mem_processedNames {queue : ProfileQueue} {name : String} :
    name ∈ queue.processedNames ↔ .requested name ∈ queue.processed :=
  Profile.mem_names_requested

end ProfileQueue

namespace Run

variable {ctx : LoadContext} {p : Profile} {run : Run} {document : Document}

/-- A profile that was asked for stays in the queue until it is done. -/
theorem invariant_holds (hp : p.isFallback = false) :
    Invariant ctx fun busy run => run.queue.Holds busy p where
  follow _ h := holds_follow h hp _
  step hstep h := by
    cases hstep with
    | skip => exact h
    | read => exact h
    | pickUp _ chosen => exact holds_foldl_follow h hp (chosen.map Prod.fst)
  announce _ h := h
  next hnext h := h.next_some hnext
  done h := h.markProcessed
  drained hnext h := ProfileQueue.holds_of_done (h.next_none hnext)

private theorem firm_follow (hd : document.IsRead ctx) (h : run.queue.Firm) :
    (run.follow document).queue.Firm := by
  have hfirm (p : Profile) (hp : p ∈ document.requests) : p.isFallback = false :=
    ProfileQueue.isFallback_of_requested (hd.requested p hp)
  refine (h.activate _ fun p hp => ?_).includeFirst _ fun p hp => ?_
  · exact hfirm p (List.mem_append_left _ hp)
  · exact hfirm p (List.mem_append_right _ hp)

/-- A queue without fallbacks gets none. -/
theorem invariant_firm : Invariant ctx fun busy run =>
    run.FromFiles ctx ∧ run.queue.Firm ∧ ∀ p ∈ busy, p.isFallback = false :=
  QueueInvariant.invariant {
    follow hd h := ⟨firm_follow hd h.1, h.2⟩
    record _ _ _ h := h
    keep _ _ _ h := h
    next hnext h := by
      obtain ⟨hrest, hprofile⟩ := h.1.next_some hnext
      exact ⟨hrest, fun p hp => List.mem_singleton.mp hp ▸ hprofile⟩
    done h := ⟨h.1.markProcessed (h.2 _ List.mem_cons_self), fun p hp => by cases hp⟩
    drained hnext h := ⟨h.1.next_none hnext, h.2⟩ }

/-- Where no fallback waits, a profile that was asked for is processed as such. -/
theorem requested_of_loop {after : Run} {name : String} (hloop : Loop ctx run (after, none))
    (hfiles : run.FromFiles ctx) (hwaits : .requested name ∈ run.queue.pending)
    (hfirm : run.queue.Firm) : .requested name ∈ after.queue.processed := by
  cases hloop with
  | ends hrounds hnext =>
    have hdone := ((invariant_holds rfl).rounds hrounds (.inl hwaits)).next_none hnext
    have hreached := invariant_firm.rounds hrounds ⟨hfiles, hfirm, fun p hp => by cases hp⟩
    have hkept := (hreached.2.1.next_none hnext).2
    obtain ⟨p, hp, hname⟩ := List.mem_map.mp (Profile.isIn_iff.mp hdone)
    cases p with
    | requested other =>
      cases hname
      exact hp
    | unscoped => cases hname
    | fallback other => cases hkept _ hp

end Run

namespace Loader

variable {loader : Loader} {store : Store} {env : Environment} {report : Report}
  {active : List String}

/-- The profiles that are active when a load begins are processed as such. -/
theorem requested_of_active (h : (loader.load store env).result = .ok report)
    (hactive : (hide env).active = .ok active) :
    ∀ name ∈ active, .requested name ∈ report.processed := by
  intro name hname
  obtain ⟨ctx, queue, events, hstart, hloop, hsweep, hprocessed⟩ := exists_lastSweep h
  obtain ⟨found, hfound, hwaits⟩ := ProfileQueue.start_active hstart
  obtain rfl := Except.ok.inj (hactive.symm.trans hfound)
  obtain ⟨hwaits, hfirm⟩ := hwaits (List.ne_nil_of_mem hname)
  have hsteady := Run.steady_sweep (loader.drained store env) ctx .negative .unscoped
  rw [hsweep] at hsteady
  rw [hprocessed, hsteady.2]
  exact Run.requested_of_loop hloop (Run.fromFiles_start _ _ _) (hwaits name hname) hfirm

/-- A load that is finished reports the final profiles that it made active. -/
theorem finish_active {plan : Plan} {defaults : Option Source} {run : Run}
    (h : (finish plan defaults run).result = .ok report) :
    ∃ spliced, activateFinal run.queue defaults spliced =
      .ok (report.active, (finish plan defaults run).env) := by
  unfold finish at h ⊢
  dsimp only at h ⊢
  split at h
  · cases h
  · next hfinal =>
    cases h
    exact ⟨_, by rw [hfinal]⟩

/-- The profiles that a load reports are those that it stores. Among them are those that were
asked for and processed. -/
theorem activeNames_load (h : (loader.load store env).result = .ok report) :
    (loader.load store env).env.activeNames = report.active ∧ report.active.Nodup ∧
      ∀ name, .requested name ∈ report.processed → name ∈ report.active := by
  obtain ⟨ctx, queue, events, -, -, -, hprocessed⟩ := exists_lastSweep h
  obtain ⟨locations, names, -, hload⟩ := load_of_complete (interruption_eq_none h)
  rw [hload] at h ⊢
  obtain ⟨spliced, hfinal⟩ := finish_active h
  obtain ⟨hactive, hnodup, hafter⟩ := activateFinal_ok hfinal
  obtain ⟨named, hnamed⟩ := ProfileQueue.finalActive_ok hactive
  refine ⟨by rw [hafter], hnodup, fun name hname => ?_⟩
  rw [hprocessed] at hname
  rw [hnamed, List.mem_eraseDups]
  exact List.mem_append_right _ (ProfileQueue.mem_processedNames.mpr hname)

/-- The environment has the active profiles that the load reports iff there are some, or the
chain names none. There are some whenever a profile was active when the load began, or one that
was asked for was processed. -/
theorem active_load_iff (h : (loader.load store env).result = .ok report) :
    let after := (loader.load store env).env
    (after.active = .ok report.active ↔
      report.active ≠ [] ∨ ({ after with activeNames := [] } : Environment).active = .ok []) ∧
    (∀ active, (hide env).active = .ok active → ∀ name ∈ active, name ∈ report.active) ∧
    ∀ name, .requested name ∈ report.processed → name ∈ report.active := by
  obtain ⟨hstored, -, hasked⟩ := activeNames_load h
  refine ⟨?_, fun active hactive name hname => ?_, hasked⟩
  · generalize (loader.load store env).env = after at hstored ⊢
    obtain ⟨chain, activeNames, defaultNames⟩ := after
    obtain rfl : activeNames = report.active := hstored
    by_cases hnone : report.active = []
    · simp [hnone]
    · simp [hnone, Environment.active]
  · exact hasked name (requested_of_active h hactive name hname)

/-! ### A load after which the chain does not matter -/

def cloudStore : Store :=
  .ofTexts [("file:/application.properties", "profiles.active=cloud\n")]

def cloudReport : Report where
  locations := ["file:/"]
  names := ["application"]
  processed := [.unscoped, .requested "cloud"]
  added := ["applicationConfig: [file:/application.properties]"]
  active := ["cloud"]

theorem active_load_cloud :
    (plainDirectory.load cloudStore {}).result = .ok cloudReport ∧
      (plainDirectory.load cloudStore {}).env.active = .ok cloudReport.active := by
  have hload : (plainDirectory.load cloudStore {}).result = .ok cloudReport := by
    decide +kernel
  exact ⟨hload, (active_load_iff hload).1.mpr (.inl (by decide))⟩

/-! ### A load after which the chain names a profile -/

/-- The reference stands for nothing when the file is read, and for a profile when the file is
part of the chain. -/
def deferredStore : Store :=
  .ofTexts [("file:/application.properties", "q=dev\nprofiles.active=$\x7bq:\x7d\n")]

def deferredReport : Report where
  locations := ["file:/"]
  names := ["application"]
  processed := [.unscoped, .fallback "default"]
  added := ["applicationConfig: [file:/application.properties]"]
  active := []

theorem dev_active_unreported :
    (plainDirectory.load deferredStore {}).result = .ok deferredReport ∧
      (plainDirectory.load deferredStore {}).env.active = .ok ["dev"] := by
  decide +kernel

end Loader

end LayeredConfig
