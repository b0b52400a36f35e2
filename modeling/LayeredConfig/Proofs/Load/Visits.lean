import LayeredConfig.Proofs.Load.Rounds

/-!
# What a load finds

A load that succeeds sweeps the search path once for every profile that it processes and once
more for the unscoped profile. A sweep is determined by its pass, its profile, the profiles that
were done before, and the environment at that time; it visits the probes for them one after the
other. What a visit finds, and what it reports, can be read off the memo with which the load ends,
because a memo never changes what it keeps. So whatever a run accumulates visit by visit is, in the
end, what its visits contribute, in their order.

## Main definitions

* `Sweep`, `Report.sweeps`: the sweeps of a load.
* `Visit`, `Loader.visits`: their visits, each with what it finds and what it reports.
* `DocumentMemo.Extends`: a memo keeps what another one keeps.
* `Run.Log`: a list that grows visit by visit.

## Main results

* `Loader.Course.log_eq`: a log holds what the visits of a load contribute.
* `Loader.Course.pickups_eq`: the documents that a load picks up are those that its visits find.
* `Loader.Course.reports_eq`: what a load reports of its probes is what its visits report.
-/

namespace LayeredConfig

/-! ### Memos that grow -/

namespace DocumentMemo

/-- The second memo keeps what the first one keeps. -/
def Extends (memo later : DocumentMemo) : Prop :=
  ∀ key documents, memo.entries.lookup key = some documents →
    later.entries.lookup key = some documents

theorem Extends.refl (memo : DocumentMemo) : Extends memo memo := fun _ _ h => h

theorem Extends.trans {a b c : DocumentMemo} (h : Extends a b) (h' : Extends b c) :
    Extends a c :=
  fun key documents hkey => h' key documents (h key documents hkey)

/-- Reading a resource keeps its documents, and all that were kept before. -/
theorem get_ok {memo later : DocumentMemo} {index : Nat} {format : Format} {name : String}
    {resource : Resource} {resolve : String → Except Failure String}
    {documents : List Document}
    (h : memo.get index format name resource resolve = .ok (documents, later)) :
    memo.Extends later ∧ later.entries.lookup (index, resource.identity) = some documents := by
  unfold get at h
  split at h
  · next found hfound =>
    cases h
    exact ⟨.refl memo, hfound⟩
  · next hnone =>
    obtain ⟨loaded, -, h⟩ := Failure.bind_eq_ok_iff.mp h
    cases h
    refine ⟨fun key kept hkey => ?_, by simp⟩
    have hne : key ≠ (index, resource.identity) := by
      rintro rfl
      cases hnone.symm.trans hkey
    rwa [List.lookup_cons, beq_eq_false_iff_ne.mpr hne]

end DocumentMemo

/-! ### Sweeps -/

/-- The document takes part for a profile, where that can be decided. -/
def Document.takesPart (document : Document) (pass : Pass) (profile : Profile)
    (env : Environment) : Bool :=
  match document.applies pass profile env with
  | .ok applies => applies
  | .error _ => false

/-- The documents of a probe that a memo keeps. -/
def Probe.documents (probe : Probe) (store : Store) (memo : DocumentMemo) : List Document :=
  let resource := store.resource probe.location
  if resource.isThere && resource.extension?.isSome then
    (probe.index.bind fun index =>
      memo.entries.lookup (index, resource.identity)).getD []
  else []

/-- One way through the search path. -/
structure Sweep where
  pass : Pass
  profile : Profile
  /-- The profiles that were done before. -/
  earlier : List Profile
  env : Environment

namespace Sweep

/-- The documents that a sweep picks up among those of a probe, the last one first. -/
def picked (sweep : Sweep) (probe : Probe) (documents : List Document) : List Pickup :=
  ((documents.zipIdx.filter fun entry =>
    entry.1.takesPart sweep.pass probe.selector sweep.env).reverse).map fun entry =>
      { profile := sweep.profile, placement := sweep.pass.placement, location := probe.location,
        index := entry.2, document := entry.1 }

/-- What a sweep reports of a probe with these documents. Where documents are there but none of
them takes part, it reports nothing. -/
def report? (sweep : Sweep) (store : Store) (probe : Probe) (documents : List Document) :
    Option Event :=
  let resource := store.resource probe.location
  let report (finding : Finding) : Event := .probed finding probe.location sweep.profile.name?
  if !resource.isThere then some (report .missing)
  else if resource.extension?.isNone then some (report .withoutExtension)
  else if documents.isEmpty then some (report .empty)
  else if (sweep.picked probe documents).isEmpty then none
  else some (report .loaded)

end Sweep

/-- A probe that was carried out, and the documents that were there. -/
structure Visit where
  sweep : Sweep
  /-- The entry of the search path that led there. -/
  root : String
  probe : Probe
  documents : List Document

/-- What a visit finds, the last document first. -/
def Visit.found (visit : Visit) : List Pickup :=
  visit.sweep.picked visit.probe visit.documents

/-- What a visit reports, if anything. -/
def Visit.report? (visit : Visit) (store : Store) : Option Event :=
  visit.sweep.report? store visit.probe visit.documents

namespace Sweep

/-- The visits of a sweep in order. -/
def visits (sweep : Sweep) (ctx : LoadContext) (memo : DocumentMemo) : List Visit :=
  ctx.plan.locations.flatMap fun root =>
    (ctx.plan.locationProbes sweep.earlier sweep.profile root).map fun probe =>
      { sweep, root, probe, documents := probe.documents ctx.store memo }

/-- The environment after a profile is made active, where that can be done. -/
def announced (env : Environment) (profile : Profile) : Environment :=
  match Run.announce env profile with
  | .ok env => env
  | .error _ => env

/-- The sweeps for profiles that are processed after those in `earlier`. -/
def ofProfiles (env : Environment) (earlier : List Profile) : List Profile → List Sweep
  | [] => []
  | profile :: profiles =>
    { pass := .positive, profile, earlier, env := announced env profile } ::
      ofProfiles (announced env profile) (earlier ++ [profile]) profiles

end Sweep

/-! ### Events of the queue -/

namespace ProfileQueue

private theorem filter_activate (queue : ProfileQueue) (profiles : List Profile) :
    (queue.activate profiles).2.filter (fun event => event.location?.isSome) = [] := by
  unfold activate
  split
  · rfl
  · split <;> rfl

private theorem filter_includeFirst (queue : ProfileQueue) (profiles : List Profile) :
    (queue.includeFirst profiles).2.filter (fun event => event.location?.isSome) = [] := by
  unfold includeFirst
  split <;> rfl

/-- A load begins without having reported anything of a probe. -/
private theorem filter_start {env : Environment} {queue : ProfileQueue} {events : List Event}
    (h : start env = .ok (queue, events)) :
    events.filter (fun event => event.location?.isSome) = [] := by
  unfold start at h
  obtain ⟨activated, -, h⟩ := Failure.bind_eq_ok_iff.mp h
  obtain ⟨included, -, h⟩ := Failure.bind_eq_ok_iff.mp h
  obtain ⟨active, -, h⟩ := Failure.bind_eq_ok_iff.mp h
  dsimp only at h
  split at h
  · obtain ⟨defaults, -, h⟩ := Failure.bind_eq_ok_iff.mp h
    cases h
    exact filter_activate _ _
  · cases h
    exact filter_activate _ _

end ProfileQueue

namespace Run

variable {ctx : LoadContext} {run after last : Run} {sweep : Sweep} {probe : Probe}
  {documents : List Document}

/-! ### What a visit adds to a run -/

/-- The events of a run that report what a probe found. -/
def reports (run : Run) : List Event :=
  run.events.toList.filter fun event => event.location?.isSome

/-- Following a document reports nothing of a probe. -/
private theorem reports_follow (run : Run) (document : Document) :
    (run.follow document).reports = run.reports := by
  simp only [reports, follow, Array.toList_appendList, List.filter_append,
    ProfileQueue.filter_activate, ProfileQueue.filter_includeFirst, List.append_nil]

private theorem reports_record (run : Run) (finding : Finding) (location : String)
    (name : Option String) : (run.record (.probed finding location name)).reports =
      run.reports ++ [.probed finding location name] := by
  simp [reports, record, Event.location?]

/-- At a probe with these documents a run got what a sweep picks up and reports there. -/
structure Adds (store : Store) (sweep : Sweep) (probe : Probe) (documents : List Document)
    (run after : Run) : Prop where
  pickups : after.pickups.toList = run.pickups.toList ++ sweep.picked probe documents
  reports : after.reports = run.reports ++ (sweep.report? store probe documents).toList

private theorem adds_record {store : Store} {finding : Finding} (run : Run)
    (hreport : sweep.report? store probe [] =
      some (.probed finding probe.location sweep.profile.name?)) :
    Adds store sweep probe [] run
      (run.record (.probed finding probe.location sweep.profile.name?)) :=
  ⟨(List.append_nil _).symm, by rw [reports_record, hreport, Option.toList_some]⟩

private theorem choose_ok {pass : Pass} {selector : Profile} {documents : List (Document × Nat)}
    {chosen : List (Document × Nat)}
    (h : run.choose pass selector documents = (after, .ok chosen)) :
    chosen = documents.filter (fun entry => entry.1.takesPart pass selector run.env) ∧
      after.pickups = run.pickups ∧ after.reports = run.reports ∧ after.memo = run.memo := by
  induction documents generalizing run chosen with
  | nil =>
    cases h
    exact ⟨rfl, rfl, rfl, rfl⟩
  | cons entry documents ih =>
    unfold choose at h
    split at h
    · cases h
    · next happlies =>
      rw [List.filter_cons_of_neg (by simp [Document.takesPart, happlies])]
      exact ih h
    · next happlies =>
      split at h
      · next hrest =>
        cases h
        obtain ⟨hchosen, hpickups, hreports, hmemo⟩ := ih hrest
        rw [List.filter_cons_of_pos (by simp [Document.takesPart, happlies]), hchosen]
        exact ⟨rfl, hpickups, hreports.trans (reports_follow run _), hmemo⟩
      · cases h

private theorem adopt_ok {store : Store} (run : Run) (henv : run.env = sweep.env)
    (hreport : sweep.report? store probe documents =
      if (sweep.picked probe documents).isEmpty then none
      else some (.probed .loaded probe.location sweep.profile.name?))
    (h : run.adopt sweep.pass sweep.profile probe documents = (after, none)) :
    Adds store sweep probe documents run after ∧ after.memo = run.memo := by
  unfold adopt at h
  split at h
  · cases h
  · next hchoose =>
    cases h
    obtain ⟨hnone, hpickups, hreports, hmemo⟩ := choose_ok hchoose
    rw [henv] at hnone
    have hpicked : sweep.picked probe documents = [] := by
      rw [Sweep.picked, ← hnone]
      rfl
    refine ⟨⟨?_, ?_⟩, hmemo⟩
    · rw [hpicked, hpickups, List.append_nil]
    · rw [hreport, hpicked, hreports]
      exact (List.append_nil _).symm
  · next chosen hsome hchoose =>
    cases h
    obtain ⟨hchosen, hpickups, hreports, hmemo⟩ := choose_ok hchoose
    rw [henv] at hchosen
    have hpicked : (sweep.picked probe documents).isEmpty = false := by
      rw [Sweep.picked, ← hchosen]
      simpa using hsome
    refine ⟨⟨?_, ?_⟩, hmemo⟩
    · simp only [record, pickUp, Array.toList_appendList, hpickups, Sweep.picked, ← hchosen]
    · rw [reports_record, hreport, hpicked]
      exact congrArg (· ++ _) hreports

private theorem examine_ok (henv : run.env = sweep.env) {format : Format} {index : Nat}
    (hindex : probe.index = some index)
    (h : run.examine ctx.store format index sweep.pass sweep.profile probe = (after, none)) :
    run.memo.Extends after.memo ∧ ∀ memo, after.memo.Extends memo →
      Adds ctx.store sweep probe (probe.documents ctx.store memo) run after := by
  unfold examine at h
  dsimp only at h
  split at h
  · next hmissing =>
    cases h
    refine ⟨.refl _, fun memo _ => ?_⟩
    rw [show probe.documents ctx.store memo = [] by simp_all [Probe.documents]]
    exact adds_record run (by simp only [Sweep.report?, hmissing, if_true])
  · next hthere =>
    split at h
    · next hextension =>
      cases h
      refine ⟨.refl _, fun memo _ => ?_⟩
      rw [show probe.documents ctx.store memo = [] by simp_all [Probe.documents]]
      exact adds_record run (by simp only [Sweep.report?, hthere, hextension, if_true]; rfl)
    · next hextension =>
      split at h
      · cases h
      · next documents later hget =>
        obtain ⟨hextends, hkept⟩ := DocumentMemo.get_ok hget
        have hdocuments (memo : DocumentMemo) (hmemo : later.Extends memo) :
            probe.documents ctx.store memo = documents := by
          rw [Bool.not_eq_true', Bool.not_eq_false] at hthere
          rw [← Option.not_isSome, Bool.not_eq_true', Bool.not_eq_false] at hextension
          simp [Probe.documents, hthere, hextension, hindex, hmemo _ _ hkept]
        split at h
        · next hempty =>
          cases h
          refine ⟨hextends, fun memo hmemo => ?_⟩
          rw [hdocuments memo hmemo, List.isEmpty_iff.mp hempty]
          have hreport : sweep.report? ctx.store probe [] =
              some (.probed .empty probe.location sweep.profile.name?) := by
            simp only [Sweep.report?, hthere, hextension]
            rfl
          have hadds := adds_record { run with memo := later } hreport
          exact ⟨hadds.pickups, hadds.reports⟩
        · next hsome =>
          have hreport : sweep.report? ctx.store probe documents =
              if (sweep.picked probe documents).isEmpty then none
              else some (.probed .loaded probe.location sweep.profile.name?) := by
            simp only [Sweep.report?, hthere, hextension, hsome]
            rfl
          obtain ⟨hadds, hmemo⟩ := adopt_ok { run with memo := later } henv hreport h
          rw [hmemo]
          refine ⟨hextends, fun memo hlater => ?_⟩
          rw [hdocuments memo hlater]
          exact ⟨hadds.pickups, hadds.reports⟩

/-- A visit adds what it finds and reports to a run, and what it reads to the memo. -/
private theorem visit_ok (henv : run.env = sweep.env)
    (h : run.visit ctx sweep.pass sweep.profile probe = (after, none)) :
    run.memo.Extends after.memo ∧ ∀ memo, after.memo.Extends memo →
      Adds ctx.store sweep probe (probe.documents ctx.store memo) run after := by
  unfold visit at h
  split at h
  · cases h
  · next index hindex =>
    split at h
    · cases h
    · next format _ =>
      split at h
      · next hexamine =>
        cases h
        exact examine_ok henv hindex hexamine
      · cases h

/-! ### What grows visit by visit -/

/-- A list that a run keeps and to which only visits add. -/
structure Log (store : Store) (α : Type) where
  get : Run → List α
  /-- What a sweep contributes at a probe with these documents. -/
  entries : Sweep → Probe → List Document → List α
  get_keep : ∀ run env queue, get { run with env, queue } = get run
  get_visit : ∀ {sweep probe documents run after}, Adds store sweep probe documents run after →
    get after = get run ++ entries sweep probe documents

namespace Log

variable {α : Type} (log : Log ctx.store α)

/-- What a visit contributes. -/
def contribution {store : Store} (log : Log store α) (visit : Visit) : List α :=
  log.entries visit.sweep visit.probe visit.documents

private theorem visitAll_ok (henv : run.env = sweep.env) {probes : List Probe}
    (h : run.visitAll ctx sweep.pass sweep.profile probes = (after, none)) :
    run.memo.Extends after.memo ∧ ∀ memo, after.memo.Extends memo →
      log.get after = log.get run ++ probes.flatMap fun probe =>
        log.entries sweep probe (probe.documents ctx.store memo) := by
  induction probes generalizing run with
  | nil =>
    cases h
    exact ⟨.refl _, fun memo _ => (List.append_nil _).symm⟩
  | cons probe probes ih =>
    unfold visitAll at h
    split at h
    · next visited hvisit =>
      obtain ⟨hextends, hadds⟩ := visit_ok henv hvisit
      have hsteady := steady_visit run ctx sweep.pass sweep.profile probe
      rw [hvisit] at hsteady
      obtain ⟨hrest, hlog⟩ := ih (hsteady.1.trans henv) h
      refine ⟨hextends.trans hrest, fun memo hmemo => ?_⟩
      rw [hlog memo hmemo, log.get_visit (hadds memo (hrest.trans hmemo)), List.flatMap_cons,
        List.append_assoc]
    · cases h

private theorem sweep_ok (sweep : Sweep) (henv : run.env = sweep.env)
    (hearlier : run.queue.processed = sweep.earlier)
    (h : run.sweep ctx sweep.pass sweep.profile = (after, none)) :
    run.memo.Extends after.memo ∧ ∀ memo, after.memo.Extends memo →
      log.get after = log.get run ++ (sweep.visits ctx memo).flatMap log.contribution := by
  unfold Run.sweep at h
  obtain ⟨hextends, hlog⟩ := log.visitAll_ok henv h
  refine ⟨hextends, fun memo hmemo => ?_⟩
  rw [hlog memo hmemo, hearlier, Plan.probes, Sweep.visits]
  simp only [List.flatMap_assoc, List.flatMap_map]
  rfl

end Log

/-- The documents that were picked up. -/
def pickupLog (store : Store) : Log store Pickup where
  get run := run.pickups.toList
  entries := Sweep.picked
  get_keep _ _ _ := rfl
  get_visit h := h.pickups

/-- What was reported of probes. -/
def reportLog (store : Store) : Log store Event where
  get := reports
  entries sweep probe documents := (sweep.report? store probe documents).toList
  get_keep _ _ _ := rfl
  get_visit h := h.reports

/-- Visits that are made one after the other keep what was read. -/
theorem extends_visitAll {pass : Pass} {profile : Profile} {probes : List Probe}
    (h : run.visitAll ctx pass profile probes = (after, none)) : run.memo.Extends after.memo := by
  let sweep : Sweep := { pass, profile, earlier := [], env := run.env }
  exact ((pickupLog ctx.store).visitAll_ok (show run.env = sweep.env from rfl) h).1

/-- A profile that is processed becomes active, and then there is a sweep for it. -/
theorem process_ok {profile : Profile} (h : run.process ctx profile = (after, none)) :
    ({ run with env := Sweep.announced run.env profile } : Run).sweep ctx .positive profile =
      (after, none) := by
  unfold process at h
  split at h
  · cases h
  · next env hannounce =>
    rwa [show Sweep.announced run.env profile = env by simp only [Sweep.announced, hannounce]]

/-- A loop that ends announces its profiles one after the other, and a log gets what their sweeps
contribute. -/
theorem Log.drains (log : Log ctx.store α) (h : Drains ctx run last) :
    run.memo.Extends last.memo ∧ ∃ profiles,
      last.queue.processed = run.queue.processed ++ profiles ∧
      last.env = profiles.foldl Sweep.announced run.env ∧
      ∀ memo, last.memo.Extends memo → log.get last = log.get run ++
        (Sweep.ofProfiles run.env run.queue.processed profiles).flatMap fun sweep =>
          (sweep.visits ctx memo).flatMap log.contribution := by
  induction h with
  | done hnext =>
    refine ⟨.refl _, [], ?_, rfl, fun memo _ => ?_⟩
    · simp [ProfileQueue.processed_next_none hnext]
    · rw [Sweep.ofProfiles, List.flatMap_nil, List.append_nil]
      exact log.get_keep _ _ _
  | @round run after last queue profile hnext hprocess hrest ih =>
    obtain ⟨hextends, profiles, hprocessed, henv, hlog⟩ := ih
    obtain ⟨-, hdone⟩ := processed_round hnext hprocess
    obtain ⟨-, -, hqueue, -⟩ := ProfileQueue.next_some hnext
    let sweep : Sweep := { pass := .positive, profile, earlier := run.queue.processed,
                           env := Sweep.announced run.env profile }
    have hsweep : ({ run with queue, env := sweep.env } : Run).sweep ctx .positive profile =
        (after, none) := process_ok hprocess
    have hafter : after.env = sweep.env := by
      have hsteady := steady_sweep { run with queue, env := sweep.env } ctx .positive profile
      rw [hsweep] at hsteady
      exact hsteady.1
    obtain ⟨hread, hadded⟩ := log.sweep_ok sweep rfl hqueue hsweep
    have hmarked : (after.markProcessed profile).env = sweep.env := hafter
    rw [hdone, hmarked] at hlog
    refine ⟨hread.trans hextends, profile :: profiles, ?_, ?_, fun memo hmemo => ?_⟩
    · rw [hprocessed, hdone, List.append_assoc, List.singleton_append]
    · rw [henv, hmarked, List.foldl_cons]
    · have hkept : log.get (after.markProcessed profile) = log.get after := log.get_keep _ _ _
      have hadded := hadded memo (hextends.trans hmemo)
      rw [log.get_keep run] at hadded
      rw [hlog memo hmemo, hkept, hadded, Sweep.ofProfiles, List.flatMap_cons, List.append_assoc]

/-- A loop that ends announces its profiles one after the other, and picks up what their sweeps
find. -/
theorem Drains.pickups_eq (h : Drains ctx run last) :
    run.memo.Extends last.memo ∧ ∃ profiles,
      last.queue.processed = run.queue.processed ++ profiles ∧
      last.env = profiles.foldl Sweep.announced run.env ∧
      ∀ memo, last.memo.Extends memo → last.pickups.toList = run.pickups.toList ++
        (Sweep.ofProfiles run.env run.queue.processed profiles).flatMap fun sweep =>
          (sweep.visits ctx memo).flatMap Visit.found :=
  (pickupLog ctx.store).drains h

end Run

/-! ### The visits of a load -/

/-- The sweep with which a load ends. -/
def Report.finalSweep (report : Report) (env : Environment) : Sweep where
  pass := .negative
  profile := .unscoped
  earlier := report.processed
  env := report.processed.foldl Sweep.announced env

/-- The sweeps of a load that begins in the given environment. -/
def Report.sweeps (report : Report) (env : Environment) : List Sweep :=
  Sweep.ofProfiles env [] report.processed ++ [report.finalSweep env]

theorem Report.finalSweep_mem_sweeps (report : Report) (env : Environment) :
    report.finalSweep env ∈ report.sweeps env :=
  List.mem_append_right _ (List.mem_singleton_self _)

namespace Loader

variable {loader : Loader} {store : Store} {env : Environment} {report : Report}

/-- The visits of a load with the given report. -/
def visits (loader : Loader) (store : Store) (env : Environment) (report : Report) : List Visit :=
  (report.sweeps (hide env)).flatMap fun sweep =>
    sweep.visits (loader.context store report) (loader.lastRun store env).memo

/-- A log gets what the visits of a load contribute. -/
theorem Course.log_eq {α : Type} (log : Run.Log store α)
    (course : Course loader store env report) :
    log.get (loader.lastRun store env) =
      log.get (Run.start (hide env) course.queue course.events) ++
        (loader.visits store env report).flatMap log.contribution := by
  obtain ⟨hstart, -⟩ := ProfileQueue.start_ok course.queue_start
  obtain ⟨hextends, profiles, hprocessed, henv, hlog⟩ := log.drains course.drains
  obtain rfl : report.processed = profiles := by
    rw [course.processed_eq_drained, hprocessed]
    simp [Run.start, hstart]
  have hearlier : course.drained.queue.processed = (report.finalSweep (hide env)).earlier :=
    course.processed_eq_drained.symm
  obtain ⟨hread, hadded⟩ := log.sweep_ok (report.finalSweep (hide env)) henv hearlier course.sweeps
  rw [hadded _ (.refl _), hlog _ hread]
  simp [visits, Report.sweeps, Run.start, hstart, List.flatMap_assoc]
  rfl

/-- What a load picks up is what its visits find. -/
theorem Course.pickups_eq (course : Course loader store env report) :
    (loader.lastRun store env).pickups.toList =
      (loader.visits store env report).flatMap Visit.found := by
  have hlog := course.log_eq (Run.pickupLog store)
  exact hlog.trans (List.nil_append _)

/-- What a load reports of its probes is what its visits report. -/
theorem Course.reports_eq (course : Course loader store env report) :
    (loader.lastRun store env).reports =
      (loader.visits store env report).flatMap fun visit => (visit.report? store).toList := by
  have hstart : (Run.start (hide env) course.queue course.events).reports = [] :=
    ProfileQueue.filter_start course.queue_start
  calc (loader.lastRun store env).reports
      = (Run.start (hide env) course.queue course.events).reports ++
          (loader.visits store env report).flatMap (Run.reportLog store).contribution :=
        course.log_eq (Run.reportLog store)
    _ = (loader.visits store env report).flatMap fun visit => (visit.report? store).toList := by
        rw [hstart, List.nil_append]
        rfl

theorem Course.mem_pickups_iff (course : Course loader store env report) {pickup : Pickup} :
    pickup ∈ (loader.lastRun store env).pickups ↔
      ∃ visit ∈ loader.visits store env report, pickup ∈ visit.found := by
  rw [← Array.mem_toList_iff, course.pickups_eq, List.mem_flatMap]

end Loader

end LayeredConfig
