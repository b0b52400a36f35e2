import LayeredConfig.Format.BuiltIn
import LayeredConfig.Proofs.Layers.Splice
import LayeredConfig.Proofs.Load.Announce

/-!
# What a load leaves in the environment

A load whose run is cut short leaves the chain as it was. Otherwise the collected sources stand
in one block directly above the default properties, all other sources stand as they did, and the
default properties hold again what was hidden from the load. Unlike the chain, the active
profiles are not put back when a load fails: those that were taken from the queue stay active.

## Main definitions

* `Loader.ChainFrame`: what putting a block of sources into the chain of an environment leaves.
* `Loader.Ending`: the ways in which a load can end.

## Main results

* `Loader.ending_load`: a load ends in one of these ways.
* `Loader.chain_load`: the chain after a load.
* `Loader.env_load_of_error`: the environment after a load that failed.
-/

namespace LayeredConfig

namespace Loader

variable {loader : Loader} {store : Store} {env : Environment}

/-! ### The ways in which a load can end -/

/-- The environment of a load after its sources were put into the chain. -/
def spliced (loader : Loader) (store : Store) (env : Environment) : Environment :=
  { (loader.lastRun store env).env with
    chain := env.chain.withBlock (loader.layers store env).collected }

/-- The profiles with which a load ends are stored, and nothing else changes. -/
theorem activateFinal_ok {queue : ProfileQueue} {defaults : Option Source} {after : Environment}
    {active : List String} (h : activateFinal queue defaults env = .ok (active, after)) :
    queue.finalActive defaults env = .ok active ∧ active.Nodup ∧
      after = { env with activeNames := active } := by
  unfold activateFinal at h
  obtain ⟨found, hfound, h⟩ := Failure.bind_eq_ok_iff.mp h
  obtain ⟨stored, hstored, h⟩ := Failure.bind_eq_ok_iff.mp h
  cases h
  have hnodup : active.Nodup := by
    obtain ⟨named, rfl⟩ := ProfileQueue.finalActive_ok hfound
    exact nodup_eraseDups _
  unfold Environment.setActive at hstored
  obtain ⟨-, -, hstored⟩ := Failure.bind_eq_ok_iff.mp hstored
  cases hstored
  exact ⟨hfound, hnodup, by rw [eraseDups_of_nodup hnodup]⟩

/-- The ways in which a load can end. -/
inductive Ending (loader : Loader) (store : Store) (env : Environment) : Outcome → Prop
  /-- Its run is cut short. -/
  | cutShort {failure : Failure} (hrun : loader.interruption store env = some failure) :
      Ending loader store env
        { result := .error failure
          env := { (loader.lastRun store env).env with chain := env.chain }
          events := (loader.lastRun store env).events }
  /-- The sources are put into the chain, but the final profiles cannot be made active. -/
  | refused {failure : Failure} (hrun : loader.interruption store env = none)
      (hfinal : activateFinal (loader.lastRun store env).queue
        (env.chain.get? defaultPropertiesName) (loader.spliced store env) = .error failure) :
      Ending loader store env
        { result := .error failure
          env := loader.spliced store env
          events := (loader.lastRun store env).events }
  /-- It succeeds. -/
  | loaded {locations names active : List String} (hrun : loader.interruption store env = none)
      (hsearched : loader.searched (hide env) = .ok (locations, names))
      (hfinal : (loader.lastRun store env).queue.finalActive
        (env.chain.get? defaultPropertiesName) (loader.spliced store env) = .ok active)
      (hnodup : active.Nodup) :
      Ending loader store env
        { result := .ok
            { locations, names, processed := (loader.lastRun store env).queue.processed
              added := (loader.layers store env).collected.map Source.name, active }
          env := { loader.spliced store env with activeNames := active }
          events := (loader.lastRun store env).events }

/-- The collected sources have distinct names, and the default properties are not among them. -/
theorem names_collected (loader : Loader) (store : Store) (env : Environment) :
    ((loader.layers store env).collected.map Source.name).Nodup ∧
      defaultPropertiesName ∉ (loader.layers store env).collected.map Source.name := by
  constructor
  · refine Layers.nodup_collected_names ?_
    rw [layers, Layers.ofPickups_eq_gather]
    exact Layers.nodup_keys_gather (by simp [Layers.keys]) _
  · intro hmem
    obtain ⟨source, hsource, hname⟩ := List.mem_map.mp hmem
    obtain ⟨pickup, hpickup, rfl⟩ := Layers.exists_of_mem_collected hsource
    obtain ⟨plan, hfiles⟩ := fromFiles_lastRun loader store env
    exact (hfiles.picked pickup hpickup).name_ne hname

theorem chain_lastRun (loader : Loader) (store : Store) (env : Environment) :
    (loader.lastRun store env).env.chain = (hide env).chain := by
  obtain ⟨current, -, henv⟩ := env_lastRun loader store env
  rw [henv, Environment.chain_announcing]

private theorem restore_spliced (hdistinct : env.chain.Distinct) :
    restore (env.chain.get? defaultPropertiesName)
        { (loader.lastRun store env).env with
          chain := ((loader.layers store env).splice (loader.lastRun store env).env.chain).1 } =
      loader.spliced store env := by
  obtain ⟨hnodup, hnames⟩ := names_collected loader store env
  have hchain := chain_lastRun loader store env
  have hblock := Layers.placeAll_eq_withBlock (hchain ▸ distinct_hide hdistinct) hnodup hnames
  rw [Layers.splice, hblock]
  exact restore_hide hdistinct hnames _ hchain

/-- A load ends in one of these ways. -/
theorem ending_load (hdistinct : env.chain.Distinct) :
    Ending loader store env (loader.load store env) := by
  cases hrun : loader.interruption store env with
  | some failure =>
    rw [load_of_cutShort hrun, restore_hide_nil hdistinct _ (chain_lastRun loader store env)]
    exact .cutShort hrun
  | none =>
    obtain ⟨locations, names, hsearched, hload⟩ := load_of_complete hrun
    rw [hload, finish]
    dsimp only
    -- Whether the final profiles are accepted or not, the sources are in the chain by now.
    rw [show Layers.ofPickups (loader.lastRun store env).pickups = loader.layers store env from rfl,
      restore_spliced hdistinct]
    cases hfinal : activateFinal (loader.lastRun store env).queue
        (env.chain.get? defaultPropertiesName) (loader.spliced store env) with
    | error failure => exact .refused hrun hfinal
    | ok final =>
      obtain ⟨active, after⟩ := final
      obtain ⟨hactive, hnodup, rfl⟩ := activateFinal_ok hfinal
      exact .loaded hrun hsearched hactive hnodup

/-! ### The chain after a load -/

/-- What putting a block of sources into the chain of an environment leaves. -/
structure ChainFrame (env after : Environment) (block : List Source) : Prop where
  /-- The block stands directly above the default properties, or at the end. -/
  chain_eq : after.chain = env.chain.withBlock block
  distinct : after.chain.Distinct
  /-- All other sources stand as they did. -/
  others : after.chain.omitting (block.map Source.name) =
    env.chain.omitting (block.map Source.name)
  defaults : after.chain.get? defaultPropertiesName = env.chain.get? defaultPropertiesName
  above : defaultPropertiesName ∈ env.chain.names → ∀ source ∈ block,
    Before after.chain.names source.name defaultPropertiesName
  /-- Reordering moves the default properties to the end, and nothing else. -/
  reordered : after.reorder.chain.sources =
    after.chain.sources.filter Chain.isOrdinary ++
      (env.chain.get? defaultPropertiesName).toList

private theorem chainFrame_of_eq {after : Environment} {block : List Source}
    (hdistinct : env.chain.Distinct) (hnodup : (block.map Source.name).Nodup)
    (hnames : defaultPropertiesName ∉ block.map Source.name)
    (hchain : after.chain = env.chain.withBlock block) : ChainFrame env after block := by
  have hdefaults : after.chain.get? defaultPropertiesName =
      env.chain.get? defaultPropertiesName := by
    rw [hchain, Chain.get?_withBlock hnames]
  refine ⟨hchain, ?_, ?_, hdefaults, fun hmem source hsource => ?_, ?_⟩
  · rw [hchain]
    exact hdistinct.withBlock hnodup
  · rw [hchain, Chain.omitting_withBlock]
  · rw [hchain]
    exact Chain.before_withBlock (List.mem_map_of_mem hsource) hmem hnames
  · rw [Environment.sources_reorder, hdefaults]

/-- A load whose run is cut short fails and leaves the chain as it was. Otherwise the collected
sources were put into it, whether or not the load succeeds in the end. -/
theorem chain_load (loader : Loader) (store : Store) (hdistinct : env.chain.Distinct) :
    (∀ failure, loader.interruption store env = some failure →
      (loader.load store env).result = .error failure ∧
        (loader.load store env).env.chain = env.chain) ∧
    (loader.interruption store env = none →
      ChainFrame env (loader.load store env).env (loader.layers store env).collected ∧
        ∀ report, (loader.load store env).result = .ok report →
          report.added = (loader.layers store env).collected.map Source.name) := by
  obtain ⟨hnodup, hnames⟩ := names_collected loader store env
  have hending : Ending loader store env (loader.load store env) := ending_load hdistinct
  generalize loader.load store env = outcome at hending ⊢
  cases hending with
  | cutShort hrun =>
    rw [hrun]
    refine ⟨fun failure h => ?_, fun h => by cases h⟩
    cases h
    exact ⟨rfl, rfl⟩
  | refused hrun =>
    rw [hrun]
    refine ⟨fun failure h => (by cases h), fun _ => ⟨?_, fun report h => by cases h⟩⟩
    exact chainFrame_of_eq hdistinct hnodup hnames rfl
  | loaded hrun =>
    rw [hrun]
    refine ⟨fun failure h => (by cases h), fun _ => ⟨?_, fun report h => ?_⟩⟩
    · exact chainFrame_of_eq hdistinct hnodup hnames rfl
    · cases h
      rfl

/-- A loader that searches one directory for files of the built-in formats. -/
def plainDirectory : Loader where
  search := { locations := some "file:/" }
  registry := .builtIn

/-- An environment whose default properties have a source below them. -/
def midwayEnvironment : Environment where
  chain := ⟨[.ofPairs "system" [("a", "0")],
    .ofPairs defaultPropertiesName [("profiles.include", "dev"), ("a", "9")],
    .ofPairs "last" [("b", "2")]]⟩

def midwayStore : Store := .ofTexts [("file:/application.properties", "a=1\n")]

theorem chainFrame_midway :
    ChainFrame midwayEnvironment
        (plainDirectory.load midwayStore midwayEnvironment).env
        (plainDirectory.layers midwayStore midwayEnvironment).collected ∧
      (plainDirectory.load midwayStore midwayEnvironment).env.reorder.chain.names =
        ["system", "applicationConfig: [file:/application.properties]", "last",
          defaultPropertiesName] := by
  have hdistinct : midwayEnvironment.chain.Distinct := by decide +kernel
  have hrun : plainDirectory.interruption midwayStore midwayEnvironment = none := by
    decide +kernel
  exact ⟨((chain_load plainDirectory midwayStore hdistinct).2 hrun).1, by decide +kernel⟩

/-! ### The environment after a failure -/

/-- An environment whose profiles became active on top of what a load sees is the one before iff
the chain is and no profile became active. -/
private theorem announcing_eq_iff (taken : List Profile) (chain : Chain) :
    { (hide env).announcing taken with chain } = env ↔
      chain = env.chain ∧ (hide env).newNames taken = [] := by
  have hiff : ((hide env).announcing taken).activeNames = env.activeNames ↔
      (hide env).newNames taken = [] := by
    rw [← Environment.activeNames_announcing_iff, activeNames_hide]
  change _ = (⟨env.chain, env.activeNames, env.defaultNames⟩ : Environment) ↔ _
  simp only [Environment.mk.injEq, Environment.defaultNames_announcing, defaultNames_hide,
    and_true, hiff]

/-- The environment after a load that failed. The active profiles are not put back: those that the
load has processed stay active, and the one at which its loop failed may be active, too. -/
theorem env_load_of_error {failure : Failure} (hdistinct : env.chain.Distinct)
    (h : (loader.load store env).result = .error failure) :
    (∀ first, loader.begin (hide env) = .error first → (loader.load store env).env = env) ∧
    ∃ current : Option Profile, (∀ p ∈ current, loader.StuckAt store env p failure) ∧
      let taken := (loader.lastRun store env).queue.processed ++ current.toList
      let after := (loader.load store env).env
      after.chain = (if (loader.interruption store env).isSome then env.chain
        else env.chain.withBlock (loader.layers store env).collected) ∧
      after.defaultNames = env.defaultNames ∧
      after.activeNames = ((hide env).announcing taken).activeNames ∧
      (after = env ↔ after.chain = env.chain ∧ (hide env).newNames taken = []) := by
  refine ⟨fun first hbegin => env_load_of_begin hdistinct hbegin, ?_⟩
  obtain ⟨current, hstuck, hlast⟩ := env_lastRun loader store env
  refine ⟨current, fun p hp => ?_, ?_⟩
  · obtain ⟨cause, hcause, hstuck⟩ := hstuck p hp
    rw [load_of_cutShort hcause] at h
    cases h
    exact hstuck
  obtain ⟨chain, henv, hchain⟩ : ∃ chain,
      (loader.load store env).env = { (loader.lastRun store env).env with chain } ∧
        chain = (if (loader.interruption store env).isSome then env.chain
          else env.chain.withBlock (loader.layers store env).collected) := by
    have hending : Ending loader store env (loader.load store env) := ending_load hdistinct
    generalize loader.load store env = outcome at h hending ⊢
    cases hending with
    | cutShort hrun => exact ⟨_, rfl, by rw [hrun]; rfl⟩
    | refused hrun => exact ⟨_, rfl, by rw [hrun]; rfl⟩
    | loaded => cases h
  -- Apart from the chain, the environment is the one with which the run was over.
  dsimp only
  rw [henv, hlast]
  refine ⟨hchain, ?_, rfl, ?_⟩
  · rw [Environment.defaultNames_announcing, defaultNames_hide]
  · exact announcing_eq_iff _ chain

/-- Default properties whose profiles cannot be made active. -/
def refusedEnvironment : Environment where
  chain := ⟨[.ofPairs defaultPropertiesName [("profiles.include", "!x")]]⟩

theorem env_load_refused :
    (plainDirectory.load midwayStore refusedEnvironment).result =
        .error (.invalidProfile "!x" .negatedName) ∧
      (plainDirectory.load midwayStore refusedEnvironment).env.chain =
        refusedEnvironment.chain.withBlock
          (plainDirectory.layers midwayStore refusedEnvironment).collected := by
  have hdistinct : refusedEnvironment.chain.Distinct := by decide +kernel
  have hresult : (plainDirectory.load midwayStore refusedEnvironment).result =
      .error (.invalidProfile "!x" .negatedName) := by decide +kernel
  have hrun : plainDirectory.interruption midwayStore refusedEnvironment = none := by
    decide +kernel
  obtain ⟨-, current, -, hchain, -⟩ := env_load_of_error hdistinct hresult
  rw [hrun] at hchain
  exact ⟨hresult, hchain⟩

/-- The first file activates a profile whose own file cannot be read. -/
def brokenStore : Store :=
  .ofTexts [("file:/application.properties", "profiles.active=cloud\n"),
    ("file:/application-cloud.json", "\x7b not json")]

theorem active_stays_after_failure :
    (plainDirectory.load brokenStore {}).result =
        .error (.loadFailed "file:/application-cloud.json"
          (.malformed "file:/application-cloud.json")) ∧
      (plainDirectory.load brokenStore {}).env.activeNames = ["cloud"] ∧
      (plainDirectory.load brokenStore {}).env ≠ {} := by
  decide +kernel

end Loader

end LayeredConfig
