import LayeredConfig.Proofs.Load.Frame

/-!
# What documents ask for is answered

A document that takes part may include profiles, and the first one that activates profiles has
its way. The queue keeps all of them until they are done, so whatever was asked for before the
queue is empty is processed. The last sweep comes after that: it makes profiles wait as well, but
nobody takes them from the queue any more.

## Main definitions

* `Run.Asks`: a profile was included by a document that was picked up, or activated.
* `Run.Answers`: whatever was asked for waits, is being processed, or is done.
* `Run.Sound`: whatever waits was asked for.

## Main results

* `Run.Answers.loop`: when the loop ends, whatever was asked for is done.
* `Loader.requests_processed`: the profiles that a load processes among those that are asked for.
-/

namespace LayeredConfig

open Relation (ReflTransGen)

namespace Run

variable {ctx : LoadContext} {pass : Pass} {profile p : Profile} {run after : Run}
  {busy : List Profile} {document : Document}

/-- The profile was included by a document that was picked up, or it was activated. -/
def Asks (run : Run) (p : Profile) : Prop :=
  (∃ pickup ∈ run.pickups, p ∈ pickup.document.includes) ∨
    ∃ names, .activated names ∈ run.events ∧ ∃ name ∈ names, p = .requested name

/-- Whatever was asked for waits, is being processed, or is done. -/
def Answers (busy : List Profile) (run : Run) : Prop :=
  ∀ p, run.Asks p → run.queue.Holds busy p

/-- Whatever waits was asked for. -/
def Sound (run : Run) : Prop :=
  ∀ p ∈ run.queue.pending, run.Asks p

/-! ### What is asked for -/

private theorem requested_of_includes (h : document.IsRead ctx) (hp : p ∈ document.includes) :
    ∃ name, p = .requested name :=
  h.requested p (List.mem_append_right _ hp)

private theorem requested_of_activates (h : document.IsRead ctx) :
    ∀ p ∈ document.activates, ∃ name, p = .requested name :=
  fun p hp => h.requested p (List.mem_append_left _ hp)

theorem Asks.requested (hfiles : run.FromFiles ctx) (h : run.Asks p) :
    ∃ name, p = .requested name := by
  rcases h with ⟨pickup, hpickup, hp⟩ | ⟨names, -, name, -, rfl⟩
  · exact requested_of_includes (hfiles.picked pickup hpickup) hp
  · exact ⟨name, rfl⟩

/-- A document that is followed asks for what it activates, if that takes effect. -/
theorem asks_follow :
    (run.follow document).Asks p ↔ run.Asks p ∨
      ∃ names, .activated names ∈ (run.queue.activate document.activates).2 ∧
        ∃ name ∈ names, p = .requested name := by
  have hevents (names : List String) :
      .activated names ∈ (run.follow document).events ↔ .activated names ∈ run.events ∨
        .activated names ∈ (run.queue.activate document.activates).2 := by
    simp [follow, ← Array.mem_toList_iff, ProfileQueue.activated_notMem_includeFirst]
  simp only [Asks, hevents, or_and_right, exists_or, or_assoc]
  rfl

/-- A probe asks for nothing. -/
theorem asks_record {finding : Finding} {location : String} {name : Option String} :
    (run.record (.probed finding location name)).Asks p ↔ run.Asks p := by
  simp [Asks, record]

/-- Documents that are picked up ask for what they include. -/
theorem asks_pickUp {location : String} {chosen : List (Document × Nat)} :
    (run.pickUp pass profile location chosen).Asks p ↔
      run.Asks p ∨ ∃ entry ∈ chosen, p ∈ entry.1.includes := by
  have hincluded : (∃ pickup ∈ (run.pickUp pass profile location chosen).pickups,
      p ∈ pickup.document.includes) ↔
      (∃ pickup ∈ run.pickups, p ∈ pickup.document.includes) ∨
        ∃ entry ∈ chosen, p ∈ entry.1.includes := by
    constructor
    · rintro ⟨pickup, hpickup, hp⟩
      rcases mem_pickups_pickUp.mp hpickup with hpickup | ⟨entry, hentry, rfl⟩
      · exact .inl ⟨pickup, hpickup, hp⟩
      · exact .inr ⟨entry, hentry, hp⟩
    · rintro (⟨pickup, hpickup, hp⟩ | ⟨entry, hentry, hp⟩)
      · exact ⟨pickup, mem_pickups_pickUp.mpr (.inl hpickup), hp⟩
      · exact ⟨_, mem_pickups_pickUp.mpr (.inr ⟨entry, hentry, rfl⟩), hp⟩
  rw [Asks, hincluded, or_right_comm]
  rfl

/-! ### Following documents -/

theorem holds_follow (h : run.queue.Holds busy p) (hp : p.isFallback = false)
    (document : Document) : (run.follow document).queue.Holds busy p :=
  (h.activate hp _).includeFirst _

theorem holds_foldl_follow (h : run.queue.Holds busy p) (hp : p.isFallback = false)
    (documents : List Document) : (documents.foldl Run.follow run).queue.Holds busy p := by
  induction documents generalizing run with
  | nil => exact h
  | cons document documents ih => exact ih (holds_follow h hp document)

theorem Answers.follow (hd : document.IsRead ctx) (hfiles : run.FromFiles ctx)
    (h : run.Answers busy) : (run.follow document).Answers busy := by
  intro p hp
  rcases asks_follow.mp hp with hp | ⟨names, hevent, name, hname, rfl⟩
  · have hfirm := ProfileQueue.isFallback_of_requested (hp.requested hfiles)
    exact holds_follow (h p hp) hfirm document
  · refine ProfileQueue.Holds.includeFirst (.inl ?_) _
    exact ProfileQueue.mem_pending_of_activated (requested_of_activates hd) hevent hname

/-- Following documents answers what was asked for, and what they include. -/
theorem Answers.foldl_follow {documents : List Document}
    (hdocuments : ∀ document ∈ documents, document.IsRead ctx) (hfiles : run.FromFiles ctx)
    (h : run.Answers busy) :
    (documents.foldl Run.follow run).Answers busy ∧
      ∀ document ∈ documents, ∀ p ∈ document.includes,
        (documents.foldl Run.follow run).queue.Holds busy p := by
  induction documents generalizing run with
  | nil => exact ⟨h, fun document hmem => by cases hmem⟩
  | cons document documents ih =>
    have hd := hdocuments document List.mem_cons_self
    obtain ⟨hanswers, hrest⟩ :=
      ih (fun other hother => hdocuments other (List.mem_cons_of_mem _ hother))
        (hfiles.follow document) (h.follow hd hfiles)
    refine ⟨hanswers, fun other hother p hp => ?_⟩
    rcases List.mem_cons.mp hother with rfl | hother
    · have hfirm := ProfileQueue.isFallback_of_requested (requested_of_includes hd hp)
      exact holds_foldl_follow (ProfileQueue.holds_includeFirst hp) hfirm documents
    · exact hrest other hother p hp

/-- What waits after some documents were followed was asked for, or they include it. -/
theorem Sound.foldl_follow {documents : List Document}
    (hdocuments : ∀ document ∈ documents, document.IsRead ctx) (h : run.Sound) :
    ∀ p ∈ (documents.foldl Run.follow run).queue.pending,
      (documents.foldl Run.follow run).Asks p ∨ ∃ document ∈ documents, p ∈ document.includes := by
  induction documents using List.reverseRecOn with
  | nil => exact fun p hp => .inl (h p hp)
  | append_singleton documents document ih =>
    intro p hp
    rw [List.foldl_append] at hp ⊢
    have hd := hdocuments document (by simp)
    replace ih := ih fun other hother => hdocuments other (List.mem_append_left _ hother)
    rcases ProfileQueue.mem_pending_includeFirst hp with hp | hp
    · rcases ProfileQueue.activated_of_mem_pending (requested_of_activates hd) hp with hp | hp
      · rcases ih p hp with hasked | ⟨other, hother, hincluded⟩
        · exact .inl (asks_follow.mpr (.inl hasked))
        · exact .inr ⟨other, List.mem_append_left _ hother, hincluded⟩
      · exact .inl (asks_follow.mpr (.inr hp))
    · exact .inr ⟨document, by simp, hp⟩

/-! ### Steps and rounds -/

theorem Answers.step (hstep : Step ctx pass profile run after) (hfiles : run.FromFiles ctx)
    (h : run.Answers busy) : after.Answers busy := by
  cases hstep with
  | skip => exact fun p hp => h p (asks_record.mp hp)
  | read => exact h
  | pickUp location chosen _ hkept =>
    obtain ⟨hanswers, hincluded⟩ := h.foldl_follow (isRead_of_kept hfiles hkept) hfiles
    intro p hp
    rcases asks_pickUp.mp (asks_record.mp hp) with hp | ⟨entry, hentry, hp⟩
    · exact hanswers p hp
    · exact hincluded entry.1 (List.mem_map_of_mem hentry) p hp

theorem Sound.step (hstep : Step ctx pass profile run after) (hfiles : run.FromFiles ctx)
    (h : run.Sound) : after.Sound := by
  cases hstep with
  | skip => exact fun p hp => asks_record.mpr (h p hp)
  | read => exact h
  | pickUp location chosen _ hkept =>
    intro p hp
    refine asks_record.mpr (asks_pickUp.mpr ?_)
    refine (h.foldl_follow (isRead_of_kept hfiles hkept) p hp).imp_right ?_
    rintro ⟨document, hmem, hincluded⟩
    obtain ⟨entry, hentry, rfl⟩ := List.mem_map.mp hmem
    exact ⟨entry, hentry, hincluded⟩

theorem invariant_answers :
    Invariant ctx fun busy run => run.FromFiles ctx ∧ run.Answers busy where
  follow hkept h := ⟨h.1.follow _, h.2.follow (h.1.kept _ hkept) h.1⟩
  step hstep h := ⟨h.1.step hstep, h.2.step hstep h.1⟩
  announce _ h := ⟨⟨h.1.kept, h.1.picked⟩, h.2⟩
  next hnext h := ⟨⟨h.1.kept, h.1.picked⟩, fun p hp => (h.2 p hp).next_some hnext⟩
  done h := ⟨⟨h.1.kept, h.1.picked⟩, fun p hp => (h.2 p hp).markProcessed⟩
  drained hnext h := ⟨⟨h.1.kept, h.1.picked⟩,
    fun p hp => ProfileQueue.holds_of_done ((h.2 p hp).next_none hnext)⟩

/-- A sweep that does not fail makes nothing wait that was not asked for. -/
theorem Sound.walk (hwalk : Walk ctx pass profile run (after, none))
    (hfiles : run.FromFiles ctx) (h : run.Sound) : after.Sound := by
  cases hwalk with
  | ends hsteps =>
    suffices after.FromFiles ctx ∧ after.Sound from this.2
    induction hsteps with
    | refl => exact ⟨hfiles, h⟩
    | tail _ hstep ih => exact ⟨ih.1.step hstep, ih.2.step hstep ih.1⟩

/-- When the loop ends, whatever was asked for is done. -/
theorem Answers.loop (hloop : Loop ctx run (after, none)) (hfiles : run.FromFiles ctx)
    (h : run.Answers []) : ∀ p, after.Asks p → p.isIn after.queue.processed = true := by
  cases hloop with
  | ends hrounds hnext =>
    have hreached := invariant_answers.rounds hrounds ⟨hfiles, h⟩
    exact fun p hp => (hreached.2 p hp).next_none hnext

/-- When the loop ends, nothing waits. -/
theorem Sound.loop (hloop : Loop ctx run (after, none)) : after.Sound := by
  cases hloop with
  | ends _ hnext =>
    intro p hp
    rw [ProfileQueue.pending_next_none hnext] at hp
    cases hp

/-- What a load is asked for when it begins waits. -/
theorem Answers.start {env : Environment} {queue : ProfileQueue} {events : List Event}
    (hstart : ProfileQueue.start env = .ok (queue, events)) :
    (Run.start env queue events).Answers [] := by
  rintro p (⟨pickup, hpickup, -⟩ | ⟨names, hevent, name, hname, rfl⟩)
  · simp [Run.start] at hpickup
  · have hreported : .activated names ∈ events := by simpa [Run.start] using hevent
    exact .inl (ProfileQueue.start_activated hstart hreported name hname)

/-- The negative pass appends nothing. -/
theorem mem_pickups_of_negative {progress : Progress}
    (hwalk : Walk ctx .negative profile run progress) :
    ∀ pickup ∈ progress.1.pickups, pickup.placement = .append → pickup ∈ run.pickups := by
  refine hwalk.keeps (P := fun after => ∀ pickup ∈ after.pickups,
    pickup.placement = .append → pickup ∈ run.pickups) ?_ (fun _ _ _ h => h) fun _ h _ => h
  intro before after hstep h
  cases hstep with
  | skip => exact h
  | read => exact h
  | pickUp location chosen _ _ =>
    intro pickup hpickup happend
    rcases mem_pickups_pickUp.mp hpickup with hpickup | ⟨entry, -, rfl⟩
    · rw [(Run.foldl_follow (chosen.map Prod.fst) before).2.1] at hpickup
      exact h pickup hpickup happend
    · cases happend

end Run

namespace Loader

variable {loader : Loader} {store : Store} {env : Environment} {report : Report}

/-- Whatever was asked for before the last sweep is processed, above all what the documents of the
positive passes include. Whatever was asked for at all is processed or waits in the end; so all of
it is processed iff nothing waits that was not processed. -/
theorem requests_processed (h : (loader.load store env).result = .ok report) :
    (∀ p, (loader.drained store env).Asks p → p.isIn report.processed = true) ∧
    (∀ pickup ∈ (loader.lastRun store env).pickups, pickup.placement = .append →
      ∀ p ∈ pickup.document.includes, p.isIn report.processed = true) ∧
    (∀ p, (loader.lastRun store env).Asks p →
      p.isIn report.processed = true ∨ p ∈ (loader.lastRun store env).queue.pending) ∧
    ((∀ p, (loader.lastRun store env).Asks p → p.isIn report.processed = true) ↔
      ∀ p ∈ (loader.lastRun store env).queue.pending, p.isIn report.processed = true) := by
  obtain ⟨ctx, queue, events, hstart, hloop, hsweep, hprocessed⟩ := exists_lastSweep h
  have hwalk : Run.Walk ctx .negative .unscoped (loader.drained store env)
      (loader.lastRun store env, none) := hsweep ▸ Run.walk_sweep ..
  have hsteady := Run.steady_sweep (loader.drained store env) ctx .negative .unscoped
  rw [hsweep] at hsteady
  have hbegun : (Run.start (hide env) queue events).FromFiles ctx := Run.fromFiles_start _ _ _
  obtain ⟨-, hfiles⟩ := Run.invariant_fromFiles.loop hloop hbegun
  have hdrained : ∀ p, (loader.drained store env).Asks p → p.isIn report.processed = true := by
    rw [hprocessed, hsteady.2]
    exact (Run.Answers.start hstart).loop hloop hbegun
  have hheld (p : Profile) (hp : (loader.lastRun store env).Asks p) :
      p.isIn report.processed = true ∨ p ∈ (loader.lastRun store env).queue.pending := by
    have hanswers : (loader.drained store env).Answers [] := fun p hp =>
      ProfileQueue.holds_of_done (by rw [← hsteady.2, ← hprocessed]; exact hdrained p hp)
    have hholds := (Run.invariant_answers.walk [] hwalk ⟨hfiles, hanswers⟩).2 p hp
    rw [ProfileQueue.Holds, List.append_nil, ← hprocessed] at hholds
    exact hholds.symm
  refine ⟨hdrained, fun pickup hpickup happend p hp => ?_, hheld, fun hall p hp => ?_,
    fun hall p hp => (hheld p hp).elim id (hall p)⟩
  · exact hdrained p (.inl ⟨pickup, Run.mem_pickups_of_negative hwalk pickup hpickup happend, hp⟩)
  · exact hall p ((Run.Sound.loop hloop).walk hwalk hfiles p hp)

/-! ### A load that answers everything -/

def chainedStore : Store :=
  .ofTexts [("file:/application.properties", "profiles.active=dev\nprofiles.include=base\n"),
    ("file:/application-dev.properties", "profiles.include=extra\n")]

def chainedReport : Report where
  locations := ["file:/"]
  names := ["application"]
  processed := [.unscoped, .requested "base", .requested "dev", .requested "extra"]
  added := ["applicationConfig: [file:/application-dev.properties]",
    "applicationConfig: [file:/application.properties]"]
  active := ["base", "dev", "extra"]

theorem requests_processed_chained :
    (plainDirectory.load chainedStore {}).result = .ok chainedReport ∧
      ∀ p, (plainDirectory.lastRun chainedStore {}).Asks p →
        p.isIn chainedReport.processed = true := by
  have hload : (plainDirectory.load chainedStore {}).result = .ok chainedReport := by
    decide +kernel
  exact ⟨hload, (requests_processed hload).2.2.2.mpr (by decide +kernel)⟩

/-! ### A load in which a profile is left waiting -/

/-- The only file is meant for all profiles but one, so the last sweep picks it up. -/
def lateStore : Store :=
  .ofTexts [("file:/application.properties", "profiles=!x\nprofiles.include=extra\n")]

def lateReport : Report where
  locations := ["file:/"]
  names := ["application"]
  processed := [.unscoped, .fallback "default"]
  added := ["applicationConfig: [file:/application.properties]"]
  active := []

theorem extra_left_waiting :
    (plainDirectory.load lateStore {}).result = .ok lateReport ∧
      (plainDirectory.lastRun lateStore {}).Asks (.requested "extra") ∧
      (Profile.requested "extra").isIn lateReport.processed = false := by
  exact ⟨by decide +kernel, .inl (by decide +kernel), by decide⟩

end Loader

end LayeredConfig
