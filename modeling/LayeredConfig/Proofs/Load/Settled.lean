import LayeredConfig.Proofs.Environment.Acceptance
import LayeredConfig.Proofs.Load.Active

/-!
# The profiles that are active when the queue is empty

When the queue of a load is empty, exactly the profiles that were asked for and processed are
active. The last sweep judges documents by them. The load may end with more active profiles, but
only the default properties can name those.

## Main results

* `Loader.env_drained`: the environment when the queue is empty.
* `Loader.exists_settled`: the profiles that are active then.
* `Loader.settled_eq_final`: without default properties, the load ends with the same profiles.
-/

namespace LayeredConfig

namespace Loader

variable {loader : Loader} {store : Store} {env : Environment} {report : Report}

/-- When the queue is empty, all profiles are done, and those that were asked for are active. -/
theorem env_drained (h : (loader.load store env).result = .ok report) :
    (loader.drained store env).queue.processed = report.processed ∧
      (loader.drained store env).env = (hide env).announcing report.processed := by
  obtain ⟨queue, events, hstart, hloop, hsweep, hprocessed⟩ := sweep_drained h
  obtain ⟨active, hactive, -⟩ := ProfileQueue.start_active hstart
  have hbegun : (Run.start (hide env) queue events).env =
      (hide env).announcing (Run.start (hide env) queue events).queue.processed := by
    simp [Run.start, (ProfileQueue.start_ok hstart).1]
  obtain ⟨current, hstuck, henv⟩ := Run.env_loop hactive hloop hbegun
  obtain rfl : current = none := by
    cases current with
    | none => rfl
    | some profile =>
      obtain ⟨failure, hfailure, -⟩ := hstuck profile rfl
      cases hfailure
  have hsteady := Run.steady_sweep (loader.drained store env) (loader.context store report)
    .negative .unscoped
  rw [hsweep] at hsteady
  have hdone : (loader.drained store env).queue.processed = report.processed :=
    hsteady.2.symm.trans hprocessed.symm
  refine ⟨hdone, ?_⟩
  rw [henv, hdone, Option.toList_none, List.append_nil]

/-- When the queue is empty, exactly the profiles that were asked for and processed are active.
Those that were active when the load began are among them. -/
theorem exists_settled (h : (loader.load store env).result = .ok report) :
    ∃ before settled, (hide env).active = .ok before ∧
      (loader.drained store env).env.active = .ok settled ∧ (∀ name ∈ before, name ∈ settled) ∧
      ∀ name, name ∈ settled ↔ .requested name ∈ report.processed := by
  obtain ⟨course⟩ := exists_course h
  obtain ⟨before, hbefore, -⟩ := ProfileQueue.start_active course.queue_start
  refine ⟨before, before ++ (hide env).newNames report.processed, hbefore, ?_, ?_, fun name => ?_⟩
  · rw [(env_drained h).2]
    exact Environment.active_announcing hbefore _
  · exact fun name hname => List.mem_append_left _ hname
  · rw [Environment.mem_active_newNames hbefore]
    exact or_iff_right_of_imp (requested_of_active h hbefore name)

/-- Without default properties, a load ends with the profiles that were asked for and processed. -/
theorem mem_active_iff (h : (loader.load store env).result = .ok report)
    (hdefaults : env.chain.get? defaultPropertiesName = none) (name : String) :
    name ∈ report.active ↔ .requested name ∈ report.processed := by
  obtain ⟨course⟩ := exists_course h
  obtain ⟨locations, names, -, hload⟩ := load_of_complete (interruption_eq_none h)
  have hfinished := h
  rw [hload] at hfinished
  obtain ⟨spliced, hfinal⟩ := finish_active hfinished
  have hactive := (activateFinal_ok hfinal).1
  have hnamed : report.active = (loader.lastRun store env).queue.processedNames.eraseDups := by
    rw [hdefaults] at hactive
    exact (Except.ok.inj hactive).symm
  rw [hnamed, course.processed_eq, List.mem_eraseDups]
  exact ProfileQueue.mem_processedNames

/-- Without default properties, a load ends with the profiles that are active when its queue is
empty, and stores them. The profiles that were active when it began are among them. So the last
sweep accepts a document iff the environment with the stored profiles does. -/
theorem settled_eq_final (h : (loader.load store env).result = .ok report)
    (hdefaults : env.chain.get? defaultPropertiesName = none) :
    let settled := (loader.drained store env).env
    (loader.drained store env).sweep (loader.context store report) .negative .unscoped =
      (loader.lastRun store env, none) ∧
    (loader.load store env).env.activeNames = report.active ∧
    (∃ before names, env.active = .ok before ∧ settled.active = .ok names ∧
      (∀ name, name ∈ names ↔ name ∈ report.active) ∧ ∀ name ∈ before, name ∈ names) ∧
    settled.accepts = ({ env with activeNames := report.active } : Environment).accepts := by
  have hhide : hide env = env := by rw [hide, hdefaults]
  obtain ⟨before, names, hbefore, hnames, hkept, hsettled⟩ := exists_settled h
  have henv := (env_drained h).2
  rw [hhide] at hbefore henv
  have hfinal (name : String) : name ∈ names ↔ name ∈ report.active :=
    (hsettled name).trans (mem_active_iff h hdefaults name).symm
  obtain ⟨queue, events, -, -, hsweep, -⟩ := sweep_drained h
  refine ⟨hsweep, (activeNames_load h).1, ⟨before, names, hbefore, hnames, hfinal, hkept⟩, ?_⟩
  by_cases hnone : names = []
  · -- No profile was asked for, so the environment is the one with which the load began.
    have hreport : report.active = [] :=
      List.eq_nil_iff_forall_not_mem.mpr fun name hname => by
        have := (hfinal name).mpr hname
        simp [hnone] at this
    have hactive := Environment.active_announcing hbefore report.processed
    rw [← henv, hnames, hnone] at hactive
    obtain ⟨rfl, hnew⟩ := List.append_eq_nil_iff.mp (Except.ok.inj hactive).symm
    have hstored : env.activeNames = [] := by
      by_contra hstored
      exact hstored (Except.ok.inj ((Environment.active_of_stored hstored).symm.trans hbefore))
    rw [henv, Environment.announcing, if_pos (by simp [hnew]), hreport, ← hstored]
  · obtain ⟨name, hname⟩ := List.exists_mem_of_ne_nil _ hnone
    have hsome : report.active ≠ [] := List.ne_nil_of_mem ((hfinal name).mp hname)
    have hactive := Environment.active_of_stored
      (show ({ env with activeNames := report.active } : Environment).activeNames ≠ [] from hsome)
    exact Environment.accepts_eq_of_active hnames hactive hfinal hnone

/-! ### A load that puts its profiles in another order -/

def includeStore : Store :=
  .ofTexts [("file:/application.properties", "profiles.include=cloud\n")]

def includeReport : Report where
  locations := ["file:/"]
  names := ["application"]
  processed := [.unscoped, .requested "cloud", .requested "dev"]
  added := ["applicationConfig: [file:/application.properties]"]
  active := ["cloud", "dev"]

theorem settled_include :
    let env : Environment := { activeNames := ["dev"] }
    (plainDirectory.load includeStore env).result = .ok includeReport ∧
      env.chain.get? defaultPropertiesName = none ∧
      (plainDirectory.drained includeStore env).env.active = .ok ["dev", "cloud"] ∧
      (plainDirectory.drained includeStore env).env.accepts =
        ({ env with activeNames := ["cloud", "dev"] } : Environment).accepts := by
  intro env
  have hload : (plainDirectory.load includeStore env).result = .ok includeReport := by
    decide +kernel
  exact ⟨hload, rfl, by decide +kernel, (settled_eq_final hload rfl).2.2.2⟩

end Loader

end LayeredConfig
