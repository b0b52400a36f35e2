import LayeredConfig.Proofs.Load.Reading
import LayeredConfig.Properties

/-!
# Reading every resource anew

A load asks for the same resource once for every profile, and its memo answers all but the first
time. Between two questions the load goes on: profiles become active, and the same resource may
be asked for under another name. Yet the answer of the memo is what a new reading would give. The
references in the reserved keys stand for values of the chain, which no step of a load changes,
and where texts are held by location, a resource of one identity is asked for under one name. So
a load that forgets its memo before every look has the same outcome.

## Main definitions

* `Run.forget`: a run that has read nothing.
* `Run.drainAnew`, `Loader.loadAnew`: the loop and the load, reading every resource anew.
* `Store.Identifies`: what has one identity is found at one location.

## Main results

* `DocumentMemo.get_empty`: with an empty memo, a resource is read.
* `Run.forget_visit`: a visit finds with its memo what it finds without.
* `Loader.loadAnew_eq_load`: the two loads have the same result, environment and events.
-/

namespace LayeredConfig

/-- What has one identity is found at one location. -/
def Store.Identifies (store : Store) : Prop :=
  ∀ location other, (store.resource location).identity = (store.resource other).identity →
    location = other

theorem Store.identifies_texts (files : List (String × String)) : (texts files).Identifies :=
  fun _ _ h => h

/-- With an empty memo, a resource is read. -/
theorem DocumentMemo.get_empty (index : Nat) (format : Format) (name : String)
    (resource : Resource) (resolve : String → Except Failure String) :
    ((({} : DocumentMemo).get index format name resource resolve).map Prod.fst) =
      Document.load format name resource resolve := by
  simp only [get, List.lookup_nil]
  cases Document.load format name resource resolve <;> rfl

namespace Run

variable {ctx : LoadContext} {names : List (Option String)} {run other : Run} {probe : Probe}

/-! ### A load without its memo -/

/-- A run that has read nothing. -/
def forget (run : Run) : Run :=
  { run with memo := {} }

/-- Carries out probes like `visitAll`, and reads the resource of every probe. -/
def visitAllAnew (run : Run) (ctx : LoadContext) (pass : Pass) (profile : Profile) :
    List Probe → Progress
  | [] => (run, none)
  | probe :: probes =>
    match run.forget.visit ctx pass profile probe with
    | (run, none) => visitAllAnew run ctx pass profile probes
    | (run, some failure) => (run, some failure)

/-- Goes through the search path like `sweep`, and reads every resource on it. -/
def sweepAnew (run : Run) (ctx : LoadContext) (pass : Pass) (profile : Profile) : Progress :=
  run.visitAllAnew ctx pass profile (ctx.plan.probes run.queue.processed profile)

/-- Makes a profile active and looks for its documents, reading every resource. -/
def processAnew (run : Run) (ctx : LoadContext) (profile : Profile) : Progress :=
  match announce run.env profile with
  | .error failure => (run, some failure)
  | .ok env => { run with env }.sweepAnew ctx .positive profile

theorem Coherent.forget (h : run.Coherent ctx names) : run.forget.Coherent ctx names :=
  h.of_env rfl h.pending (by simp [Run.forget])

private theorem visitAllAnew_keeps (pass : Pass) (profile : Profile) (probes : List Probe)
    (h : run.Coherent ctx names) :
    (run.visitAllAnew ctx pass profile probes).1.Coherent ctx names ∧
      Steady run (run.visitAllAnew ctx pass profile probes).1 := by
  induction probes generalizing run with
  | nil => exact ⟨h, .refl run⟩
  | cons probe probes ih =>
    obtain ⟨hvisit, hsteady⟩ := visit_keeps pass profile probe h.forget
    unfold visitAllAnew
    split
    · next heq =>
      rw [heq] at hvisit hsteady
      obtain ⟨hrest, hkept⟩ := ih hvisit
      exact ⟨hrest, Steady.trans hsteady hkept⟩
    · next heq =>
      rw [heq] at hvisit hsteady
      exact ⟨hvisit, hsteady⟩

private theorem coherent_processAnew (profile : Profile) (h : run.Coherent ctx names) :
    (run.processAnew ctx profile).1.Coherent ctx names ∧
      (run.processAnew ctx profile).1.queue.processed = run.queue.processed := by
  unfold processAnew
  split
  · exact ⟨h, rfl⟩
  · next env henv =>
    have hresolve : env.resolve = run.env.resolve :=
      Environment.resolve_congr (chain_announce henv)
    have hrun : ({ run with env } : Run).Coherent ctx names := h.of_env hresolve h.pending h.memo
    obtain ⟨hkept, hsteady⟩ := visitAllAnew_keeps .positive profile _ hrun
    exact ⟨hkept, hsteady.2⟩

private theorem Coherent.afterRoundAnew {queue : ProfileQueue} {profile : Profile} {after : Run}
    (h : run.Coherent ctx names) (hnext : run.queue.next = (some profile, queue))
    (hprocess : ({ run with queue } : Run).processAnew ctx profile = (after, none)) :
    (after.markProcessed profile).Coherent ctx names ∧
      (after.markProcessed profile).remaining names < run.remaining names := by
  have hkept := coherent_processAnew profile (h.next hnext)
  rw [hprocess] at hkept
  exact h.markProcessed hnext hkept.1 hkept.2

/-- Processes the profiles of the queue like `drain`, and reads every resource. -/
def drainAnew (ctx : LoadContext) (origin run : Run)
    (h : run.Coherent ctx (origin.knownNames ctx)) : Progress :=
  match hnext : run.queue.next with
  | (none, queue) => ({ run with queue }, none)
  | (some profile, queue) =>
    match hprocess : ({ run with queue } : Run).processAnew ctx profile with
    | (after, some failure) => (after, some failure)
    | (after, none) =>
      drainAnew ctx origin (after.markProcessed profile) (h.afterRoundAnew hnext hprocess).1
termination_by run.remaining (origin.knownNames ctx)
decreasing_by exact (h.afterRoundAnew hnext hprocess).2

/-- Picks up like `sweepRest` what unscoped files hold for some profiles, and reads them. -/
def sweepRestAnew (ctx : LoadContext) : Progress → Progress
  | (run, some failure) => (run, some failure)
  | (run, none) => run.sweepAnew ctx .negative .unscoped

/-- Processes all profiles and then what unscoped files hold for some, reading every resource. -/
def completeAnew (ctx : LoadContext) (run : Run) (h : run.memo = {}) : Progress :=
  sweepRestAnew ctx (run.drainAnew ctx run (coherent_of_memo_eq h))

end Run

/-- Loads like `load`, but keeps no document: each look at a resource reads it. -/
def Loader.loadAnew (loader : Loader) (store : Store) (env : Environment) : Outcome :=
  let defaults := env.chain.get? defaultPropertiesName
  let seen := hide env
  match loader.begin seen with
  | .error failure => { result := .error failure, env := restore defaults seen, events := #[] }
  | .ok ((locations, names), queue, events) =>
    let plan : Plan := { locations, names, registry := loader.registry }
    conclude plan defaults ((Run.start seen queue events).completeAnew ⟨plan, store⟩
      (memo_start env queue events))

/-! ### A look without the memo -/

/-- Where a run got to, apart from what it has read. -/
def Progress.forget (progress : Progress) : Progress :=
  (progress.1.forget, progress.2)

/-- A memo gives of a resource what reading it would give. -/
theorem DocumentMemo.Faithful.get_eq {ctx : LoadContext}
    {resolve : String → Except Failure String} {memo : DocumentMemo} {index : Nat}
    {format : Format} {location : String} (h : memo.Faithful ctx resolve)
    (hstore : ctx.store.Identifies) (hformat : ctx.plan.registry.get? index = some format) :
    (memo.get index format (Run.sourceName location) (ctx.store.resource location) resolve).map
        Prod.fst =
      Document.load format (Run.sourceName location) (ctx.store.resource location) resolve := by
  unfold get
  split
  · next documents hfound =>
    obtain ⟨other, kept, -, hidentity, hkept, hload⟩ := h index _ documents hfound
    obtain rfl : other = location := hstore other location hidentity
    obtain rfl : kept = format := Option.some_inj.mp (hkept.symm.trans hformat)
    exact hload.symm
  · cases Document.load format (Run.sourceName location) (ctx.store.resource location) resolve <;>
      rfl

namespace Run

variable {ctx : LoadContext} {run other : Run} {probe : Probe}

private theorem forget_choose (run : Run) (pass : Pass) (selector : Profile)
    (documents : List (Document × Nat)) :
    run.forget.choose pass selector documents =
      ((run.choose pass selector documents).1.forget,
        (run.choose pass selector documents).2) := by
  induction documents generalizing run with
  | nil => rfl
  | cons document documents ih =>
    have henv : run.forget.env = run.env := rfl
    have hfollow : run.forget.follow document.1 = (run.follow document.1).forget := rfl
    simp only [choose, henv, hfollow, ih]
    cases document.1.applies pass selector run.env with
    | error failure => rfl
    | ok applies =>
      cases applies with
      | false => rfl
      | true =>
        generalize (run.follow document.1).choose pass selector documents = chosen
        obtain ⟨run, _ | _⟩ := chosen <;> rfl

private theorem forget_adopt (run : Run) (pass : Pass) (profile : Profile) (probe : Probe)
    (documents : List Document) :
    run.forget.adopt pass profile probe documents =
      Progress.forget (run.adopt pass profile probe documents) := by
  unfold adopt
  rw [forget_choose]
  generalize run.choose pass probe.selector documents.zipIdx = chosen
  obtain ⟨run, failure | _ | document⟩ := chosen <;> rfl

/-- Looking at a resource finds the same with and without a memo that keeps what it holds. -/
private theorem forget_examine {format : Format} {index : Nat} (pass : Pass) (profile : Profile)
    (probe : Probe) (hmemo : run.memo.Faithful ctx run.env.resolve)
    (hstore : ctx.store.Identifies) (hformat : ctx.plan.registry.get? index = some format) :
    (run.forget.examine ctx.store format index pass profile probe).forget =
      (run.examine ctx.store format index pass profile probe).forget := by
  have hsame := (DocumentMemo.get_empty index format (sourceName probe.location)
    (ctx.store.resource probe.location) run.env.resolve).trans
      (hmemo.get_eq hstore hformat).symm
  unfold examine
  dsimp only [forget]
  split
  · rfl
  split
  · rfl
  generalize DocumentMemo.get {} _ _ _ _ _ = fresh at hsame ⊢
  generalize run.memo.get _ _ _ _ _ = kept at hsame ⊢
  match fresh, kept, hsame with
  | .error _, .error _, rfl => rfl
  | .ok (documents, memo), .ok (_, memo'), rfl =>
    dsimp only
    split
    · rfl
    · exact (forget_adopt { run with memo } pass profile probe documents).symm.trans
        (forget_adopt { run with memo := memo' } pass profile probe documents)

/-- A visit finds with a memo that keeps what the resources hold what it finds without. -/
theorem forget_visit (pass : Pass) (profile : Profile) (probe : Probe)
    (hmemo : run.memo.Faithful ctx run.env.resolve) (hstore : ctx.store.Identifies) :
    (run.forget.visit ctx pass profile probe).forget =
      (run.visit ctx pass profile probe).forget := by
  unfold visit
  split
  · rfl
  · next index hindex =>
    split
    · rfl
    · next format hformat =>
      have hexamine := forget_examine pass profile probe hmemo hstore hformat
      revert hexamine
      generalize run.forget.examine ctx.store format index pass profile probe = fresh
      generalize run.examine ctx.store format index pass profile probe = kept
      intro hexamine
      obtain ⟨run, failure⟩ := fresh
      obtain ⟨run', failure'⟩ := kept
      obtain ⟨hrun, rfl⟩ := Prod.mk.inj hexamine
      cases failure <;> exact Prod.ext hrun rfl

/-! ### The whole load -/

private theorem eq_of_forget (h : other.forget = run.forget) :
    other.env = run.env ∧ other.queue = run.queue := by
  simp only [forget, Run.mk.injEq] at h
  exact ⟨h.1, h.2.1⟩

private theorem forget_withQueue (h : other.forget = run.forget) (queue : ProfileQueue) :
    ({ other with queue } : Run).forget = ({ run with queue } : Run).forget := by
  simp only [forget, Run.mk.injEq] at h ⊢
  exact ⟨h.1, trivial, h.2.2⟩

private theorem forget_markProcessed (h : other.forget = run.forget) (profile : Profile) :
    (other.markProcessed profile).forget = (run.markProcessed profile).forget := by
  unfold markProcessed
  rw [(eq_of_forget h).2]
  exact forget_withQueue h _

private theorem forget_pair (h : other.forget = run.forget) (failure : Option Failure) :
    Progress.forget (other, failure) = Progress.forget (run, failure) :=
  congrArg (·, failure) h

private theorem forget_visitAllAnew (pass : Pass) (profile : Profile) {probes : List Probe}
    (hprobes : ∀ probe ∈ probes, ∀ index, probe.index = some index →
      ctx.plan.Reads index probe.location)
    (hsame : other.forget = run.forget) (hmemo : run.memo.Faithful ctx run.env.resolve)
    (hstore : ctx.store.Identifies) :
    (other.visitAllAnew ctx pass profile probes).forget =
      (run.visitAll ctx pass profile probes).forget := by
  induction probes generalizing run other with
  | nil => exact forget_pair hsame none
  | cons probe probes ih =>
    have hvisit := forget_visit pass profile probe hmemo hstore
    have hkept := faithful_visit pass profile (hprobes probe List.mem_cons_self) hmemo
    have hsteady := steady_visit run ctx pass profile probe
    unfold visitAllAnew visitAll
    rw [hsame]
    revert hvisit hkept hsteady
    generalize run.forget.visit ctx pass profile probe = fresh
    generalize run.visit ctx pass profile probe = kept
    intro hvisit hkept hsteady
    obtain ⟨run, failure⟩ := fresh
    obtain ⟨run', failure'⟩ := kept
    obtain ⟨hrun, rfl⟩ := Prod.mk.inj hvisit
    cases failure with
    | some failure => exact hvisit
    | none =>
      rw [← hsteady.1] at hkept
      exact ih (fun other hother => hprobes other (List.mem_cons_of_mem _ hother)) hrun hkept

private theorem forget_sweepAnew (pass : Pass) (profile : Profile)
    (hsame : other.forget = run.forget) (hmemo : run.memo.Faithful ctx run.env.resolve)
    (hstore : ctx.store.Identifies) :
    (other.sweepAnew ctx pass profile).forget = (run.sweep ctx pass profile).forget := by
  unfold sweepAnew sweep
  rw [(eq_of_forget hsame).2]
  exact forget_visitAllAnew pass profile (reads_probes _ _ profile) hsame hmemo hstore

private theorem forget_processAnew (profile : Profile) (hsame : other.forget = run.forget)
    (hmemo : run.memo.Faithful ctx run.env.resolve) (hstore : ctx.store.Identifies) :
    (other.processAnew ctx profile).forget = (run.process ctx profile).forget := by
  unfold processAnew process
  rw [(eq_of_forget hsame).1]
  cases hannounce : announce run.env profile with
  | error failure => exact forget_pair hsame (some failure)
  | ok env =>
    have hresolve : env.resolve = run.env.resolve :=
      Environment.resolve_congr (chain_announce hannounce)
    rw [← hresolve] at hmemo
    have hannounced : ({ other with env } : Run).forget = ({ run with env } : Run).forget := by
      simp only [forget, Run.mk.injEq] at hsame ⊢
      exact ⟨trivial, hsame.2⟩
    exact forget_sweepAnew .positive profile hannounced hmemo hstore

/-- A profile that is processed in two runs that differ in what they have read. -/
private theorem exists_process {queue : ProfileQueue} {profile : Profile} {after : Run}
    {failure : Option Failure} (hsame : other.forget = run.forget)
    (hmemo : run.memo.Faithful ctx run.env.resolve) (hstore : ctx.store.Identifies)
    (hprocess : ({ other with queue } : Run).processAnew ctx profile = (after, failure)) :
    ∃ after', ({ run with queue } : Run).process ctx profile = (after', failure) ∧
      after.forget = after'.forget ∧ after'.memo.Faithful ctx after'.env.resolve := by
  have hafter := forget_processAnew profile (forget_withQueue hsame queue) hmemo hstore
  have hkept := (@faithful_process ctx { run with queue } profile hmemo).2
  rw [hprocess] at hafter
  obtain ⟨hrun, hfailure⟩ := Prod.mk.inj hafter
  exact ⟨_, Prod.ext rfl hfailure.symm, hrun, hkept⟩

/-- The loop that reads every resource goes the way of the loop with the memo. -/
private theorem forget_drainAnew {origin origin' : Run} (hstore : ctx.store.Identifies)
    (hother : other.Coherent ctx (origin.knownNames ctx))
    (hrun : run.Coherent ctx (origin'.knownNames ctx)) (hsame : other.forget = run.forget)
    (hmemo : run.memo.Faithful ctx run.env.resolve) :
    (drainAnew ctx origin other hother).forget = (drain ctx origin' run hrun).forget ∧
      (drain ctx origin' run hrun).1.memo.Faithful ctx
        (drain ctx origin' run hrun).1.env.resolve := by
  fun_induction drainAnew ctx origin other hother generalizing run with
  | case1 other hother queue hnext =>
    rw [(eq_of_forget hsame).2] at hnext
    rw [drain_of_next_none hrun hnext]
    exact ⟨forget_pair (forget_withQueue hsame queue) none, hmemo⟩
  | case2 other hother profile queue hnext after failure hprocess =>
    rw [(eq_of_forget hsame).2] at hnext
    obtain ⟨after', hprocess', hafter, hkept⟩ := exists_process hsame hmemo hstore hprocess
    rw [drain_of_failure hrun hnext hprocess']
    exact ⟨forget_pair hafter (some failure), hkept⟩
  | case3 other hother profile queue hnext after hprocess ih =>
    rw [(eq_of_forget hsame).2] at hnext
    obtain ⟨after', hprocess', hafter, hkept⟩ := exists_process hsame hmemo hstore hprocess
    rw [drain_of_process hrun hnext hprocess']
    exact ih _ (forget_markProcessed hafter profile) hkept

/-- A run that reads every resource gets as far as one with a memo. -/
theorem forget_completeAnew (hstore : ctx.store.Identifies) (h : run.memo = {}) :
    (run.completeAnew ctx h).forget = (run.complete ctx h).forget := by
  have hmemo : run.memo.Faithful ctx run.env.resolve := by
    simp [h, DocumentMemo.Faithful]
  have hdrain := forget_drainAnew hstore (coherent_of_memo_eq h) (coherent_of_memo_eq h) rfl hmemo
  unfold completeAnew complete
  revert hdrain
  generalize drainAnew ctx run run _ = fresh
  generalize drain ctx run run _ = kept
  rintro ⟨hsame, hkept⟩
  obtain ⟨other, failure⟩ := fresh
  obtain ⟨run', failure'⟩ := kept
  obtain ⟨hother, rfl⟩ := Prod.mk.inj hsame
  cases failure with
  | some failure => exact forget_pair hother (some failure)
  | none => exact forget_sweepAnew .negative .unscoped hother hkept hstore

end Run

namespace Loader

/-- What becomes of a load does not depend on what its memo keeps. -/
theorem conclude_forget (plan : Plan) (defaults : Option Source) (progress : Progress) :
    conclude plan defaults progress.forget = conclude plan defaults progress := by
  obtain ⟨run, _ | failure⟩ := progress <;> rfl

/-- Over texts that are held by location, a load has the outcome of one that reads its resource
at every look: the same report or failure, the same environment and the same events. -/
theorem loadAnew_eq_load (loader : Loader) (files : List (String × String)) (env : Environment) :
    loader.loadAnew (.texts files) env = loader.load (.texts files) env := by
  unfold loadAnew load
  cases hbegin : loader.begin (hide env) with
  | error failure => simp only [hbegin]
  | ok begun =>
    obtain ⟨⟨locations, names⟩, queue, events⟩ := begun
    simp only [hbegin]
    rw [← conclude_forget, Run.forget_completeAnew (Store.identifies_texts files) rfl,
      conclude_forget]

/-- For a named profile its own file is looked at twice and that of the unscoped profile once more.
Each of the two is read once. -/
example :
    let ctx : LoadContext :=
      { plan := { locations := ["file:/"], names := ["application"], registry := ⟨[.properties]⟩ }
        store := .ofTexts [("file:/application.properties", "a=1"),
          ("file:/application-x.properties", "b=2")] }
    let begun := Run.start {} { pending := [.unscoped, .requested "x"] } []
    (ctx.plan.probes [.unscoped] (.requested "x")).map Probe.location =
        ["file:/application-x.properties", "file:/application-x.properties",
          "file:/application.properties"] ∧
      (begun.complete ctx rfl).1.memo.entries.map Prod.fst =
        [(0, "file:/application-x.properties"), (0, "file:/application.properties")] := by
  decide +kernel

end Loader

end LayeredConfig
