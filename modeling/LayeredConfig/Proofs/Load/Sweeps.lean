import LayeredConfig.Proofs.Load.Announce
import LayeredConfig.Proofs.Load.Collected

/-!
# The sweeps of a load are made

Every sweep of a load that succeeds, and every visit of a sweep, was made without a failure, and
the memo with which the load ends keeps what was read. A sweep sees the environment with which
the load began, in which the profiles that were taken from the queue so far are active.

## Main definitions

* `Sweep.Made`: a sweep was made in such an environment.

## Main results

* `Loader.Course.made`: the sweeps of a load were made.
* `Sweep.Made.exists_visit`: so were the visits of a sweep.
-/

namespace LayeredConfig

/-- A sweep was made while the profiles that were taken from the queue so far were active, and
the memo keeps what it read. -/
structure Sweep.Made (ctx : LoadContext) (origin : Environment) (memo : DocumentMemo)
    (sweep : Sweep) : Prop where
  env_eq : sweep.env = origin.announcing (sweep.earlier ++ [sweep.profile])
  exists_run : ∃ before after : Run, before.env = sweep.env ∧
    before.queue.processed = sweep.earlier ∧
    before.sweep ctx sweep.pass sweep.profile = (after, none) ∧ after.memo.Extends memo

/-- A sweep for a profile comes after those for the profiles before it. -/
theorem Sweep.exists_split_of_mem_ofProfiles {sweep : Sweep} {env : Environment}
    {earlier profiles : List Profile} (h : sweep ∈ ofProfiles env earlier profiles) :
    sweep.pass = .positive ∧ ∃ done later, profiles = done ++ sweep.profile :: later ∧
      sweep.earlier = earlier ++ done := by
  induction profiles generalizing env earlier with
  | nil => cases h
  | cons profile profiles ih =>
    rcases List.mem_cons.mp h with rfl | h
    · exact ⟨rfl, [], profiles, rfl, (List.append_nil _).symm⟩
    · obtain ⟨hpass, done, later, rfl, hearlier⟩ := ih h
      refine ⟨hpass, profile :: done, later, rfl, ?_⟩
      rw [hearlier, List.append_assoc, List.singleton_append]

/-- A sweep for each profile comes after those for the profiles before it. -/
theorem Sweep.exists_mem_ofProfiles {env : Environment} {earlier done later : List Profile}
    {profile : Profile} :
    ∃ sweep ∈ ofProfiles env earlier (done ++ profile :: later), sweep.pass = .positive ∧
      sweep.profile = profile ∧ sweep.earlier = earlier ++ done := by
  induction done generalizing env earlier with
  | nil => exact ⟨_, List.mem_cons_self, rfl, rfl, (List.append_nil _).symm⟩
  | cons first done ih =>
    obtain ⟨sweep, hsweep, hpass, hprofile, hearlier⟩ :=
      @ih (announced env first) (earlier ++ [first])
    refine ⟨sweep, List.mem_cons_of_mem _ hsweep, hpass, hprofile, ?_⟩
    rw [hearlier, List.append_assoc, List.singleton_append]

namespace Run

variable {ctx : LoadContext} {origin : Environment} {active : List String} {run after last : Run}
  {memo : DocumentMemo}

/-- The sweeps of a loop that ends are made, and the profiles that are done become active. -/
theorem Drains.made (h : Drains ctx run last) (hactive : origin.active = .ok active)
    (henv : run.env = origin.announcing run.queue.processed) :
    last.env = origin.announcing last.queue.processed ∧
      ∃ profiles, last.queue.processed = run.queue.processed ++ profiles ∧
        ∀ sweep ∈ Sweep.ofProfiles run.env run.queue.processed profiles,
          sweep.Made ctx origin last.memo := by
  induction h with
  | done hnext =>
    have hprocessed := ProfileQueue.processed_next_none hnext
    exact ⟨by rw [hprocessed]; exact henv, [], by simp [hprocessed], fun sweep h => by cases h⟩
  | @round run after last queue profile hnext hprocess hrest ih =>
    obtain ⟨hnew, hdone⟩ := processed_round hnext hprocess
    obtain ⟨-, -, hqueue, -⟩ := ProfileQueue.next_some hnext
    obtain ⟨announced, hannounce⟩ : ∃ env, announce run.env profile = .ok env := by
      rcases process_cases { run with queue } ctx profile with
        ⟨failure, -, hfailure⟩ | ⟨env, hannounce, -⟩
      · cases hprocess.symm.trans hfailure
      · exact ⟨env, hannounce⟩
    have hseen : Sweep.announced run.env profile = announced := by
      simp only [Sweep.announced, hannounce]
    have hannounced : announced = origin.announcing (run.queue.processed ++ [profile]) :=
      Environment.announce_announcing hactive hnew (henv ▸ hannounce)
    have hsweep := process_ok hprocess
    have hmarked : (after.markProcessed profile).env = announced := by
      have hafter : (({ run with queue } : Run).process ctx profile).1.env = announced :=
        env_process ctx hannounce
      rwa [hprocess] at hafter
    rw [hdone, hmarked] at ih
    obtain ⟨hlast, profiles, hprofiles, hmade⟩ := ih hannounced
    refine ⟨hlast, profile :: profiles, by rw [hprofiles, List.append_assoc]; rfl, ?_⟩
    intro sweep hmem
    rcases List.mem_cons.mp hmem with rfl | hmem
    · exact ⟨hseen.trans hannounced, _, after, rfl, hqueue, hsweep, hrest.pickups_eq.1⟩
    · exact hmade sweep (hseen ▸ hmem)

/-- The visits that are made one after the other are made one by one. -/
theorem exists_visit_of_visitAll {pass : Pass} {profile : Profile} {probes : List Probe}
    (h : run.visitAll ctx pass profile probes = (after, none)) {probe : Probe}
    (hprobe : probe ∈ probes) : ∃ before visited : Run, before.env = run.env ∧
      before.visit ctx pass profile probe = (visited, none) ∧
      visited.memo.Extends after.memo := by
  induction probes generalizing run with
  | nil => cases hprobe
  | cons first probes ih =>
    unfold visitAll at h
    split at h
    · next visited hvisit =>
      have hsteady := steady_visit run ctx pass profile first
      rw [hvisit] at hsteady
      rcases List.mem_cons.mp hprobe with rfl | hprobe
      · exact ⟨run, visited, rfl, hvisit, extends_visitAll h⟩
      · obtain ⟨before, reached, henv, hreached⟩ := ih h hprobe
        exact ⟨before, reached, henv.trans hsteady.1, hreached⟩
    · cases h

end Run

/-- The visits of a sweep are made, in the environment of the sweep. -/
theorem Sweep.Made.exists_visit {ctx : LoadContext} {origin : Environment} {memo : DocumentMemo}
    {sweep : Sweep} (h : sweep.Made ctx origin memo) {probe : Probe}
    (hprobe : probe ∈ ctx.plan.probes sweep.earlier sweep.profile) :
    ∃ before after : Run, before.env = sweep.env ∧
      before.visit ctx sweep.pass sweep.profile probe = (after, none) ∧
      after.memo.Extends memo := by
  obtain ⟨first, last, henv, hearlier, hsweep, hmemo⟩ := h.exists_run
  rw [Run.sweep, hearlier] at hsweep
  obtain ⟨before, after, hbefore, hvisit, hextends⟩ := Run.exists_visit_of_visitAll hsweep hprobe
  exact ⟨before, after, hbefore.trans henv, hvisit, hextends.trans hmemo⟩

namespace Loader

variable {loader : Loader} {store : Store} {env : Environment} {report : Report}

/-- The sweeps of a load were made. -/
theorem Course.made (course : Course loader store env report) :
    ∀ sweep ∈ report.sweeps (hide env), sweep.Made (loader.context store report) (hide env)
      (loader.lastRun store env).memo := by
  obtain ⟨hstart, -⟩ := ProfileQueue.start_ok course.queue_start
  obtain ⟨active, hactive, -⟩ := ProfileQueue.start_active course.queue_start
  obtain ⟨-, profiles, hprocessed, hfold, -⟩ := course.drains.pickups_eq
  obtain ⟨hsettled, profiles', hprocessed', hmade⟩ :=
    course.drains.made hactive (by simp [Run.start, hstart])
  rw [← course.processed_eq_drained] at hprocessed hprocessed' hsettled
  simp only [Run.start, hstart, List.nil_append] at hprocessed hprocessed' hmade hfold
  subst hprocessed hprocessed'
  have hfinal : course.drained.memo.Extends (loader.lastRun store env).memo :=
    Run.extends_visitAll course.sweeps
  intro sweep hsweep
  rcases List.mem_append.mp hsweep with hsweep | hsweep
  · obtain ⟨henv, before, after, hbefore, hearlier, hrun, hmemo⟩ := hmade sweep hsweep
    exact ⟨henv, before, after, hbefore, hearlier, hrun, hmemo.trans hfinal⟩
  · obtain rfl := List.mem_singleton.mp hsweep
    refine ⟨?_, course.drained, _, hfold, course.processed_eq_drained.symm, course.sweeps,
      .refl _⟩
    change report.processed.foldl Sweep.announced (hide env) =
      (hide env).announcing (report.processed ++ [.unscoped])
    rw [← hfold, hsettled]
    exact (Environment.announcing_append_of_nil rfl).symm

end Loader

end LayeredConfig
