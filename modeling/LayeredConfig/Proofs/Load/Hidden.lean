import LayeredConfig.Proofs.Load.Active

/-!
# What a load does not see

A load sees the default properties without the profiles that they activate or include, wherever
they stand in the chain. So two environments that differ only there are the same to it: it emits
the same events, fails with the same failure, and collects the same sources. Only the profiles
with which it ends are computed from what was hidden.

## Main definitions

* `Source.AgreeBeside`, `Environment.AgreeBeside`: what is the same but for the entries of some
  keys in the default properties.
* `Source.seen`: a source as a load sees it.

## Main results

* `Loader.chain_hide`: what a load sees of a chain.
* `Loader.hide_eq`: what a load sees of two environments that agree beside the hidden keys.
* `Loader.load_agrees`: what two loads of such environments have in common.
-/

namespace LayeredConfig

/-! ### Environments that agree beside some keys -/

/-- Two sources differ at most in their entries under some keys. -/
structure Source.AgreeBeside (keys : List String) (a b : Source) : Prop where
  name_eq : a.name = b.name
  kind_eq : a.kind = b.kind
  entries_eq : (a.entries.filter fun entry => !keys.contains entry.1) =
    b.entries.filter fun entry => !keys.contains entry.1

/-- Two environments differ at most in the entries of their default properties under some keys. -/
structure Environment.AgreeBeside (keys : List String) (env other : Environment) : Prop where
  sources : List.Forall₂
    (fun a b => a = b ∨ a.name = defaultPropertiesName ∧ a.AgreeBeside keys b)
    env.chain.sources other.chain.sources
  activeNames_eq : env.activeNames = other.activeNames
  defaultNames_eq : env.defaultNames = other.defaultNames

namespace Source

/-- A source as a load sees it: the default properties without what is hidden. -/
def seen (source : Source) : Source :=
  if source.name = defaultPropertiesName then source.without Loader.hiddenKeys else source

@[simp] theorem name_seen (source : Source) : source.seen.name = source.name := by
  unfold seen
  split <;> rfl

theorem seen_of_name_ne {source : Source} (h : source.name ≠ defaultPropertiesName) :
    source.seen = source :=
  if_neg h

/-- What differs in the hidden keys alone looks the same without them. -/
theorem AgreeBeside.without_eq {keys : List String} {a b : Source} (h : a.AgreeBeside keys b) :
    a.without keys = b.without keys := by
  obtain ⟨hname, hkind, hentries⟩ := h
  simp only [without, hname, hkind, Source.mk.injEq, true_and]
  exact hentries

theorem AgreeBeside.seen_eq {a b : Source} (h : a.AgreeBeside Loader.hiddenKeys b)
    (hname : a.name = defaultPropertiesName) : a.seen = b.seen := by
  rw [seen, seen, if_pos hname, if_pos (h.name_eq ▸ hname), h.without_eq]

/-- Sources that differ only in what is hidden of the default properties look the same. -/
theorem map_seen_eq {as bs : List Source}
    (h : List.Forall₂ (fun a b => a = b ∨
      a.name = defaultPropertiesName ∧ a.AgreeBeside Loader.hiddenKeys b) as bs) :
    as.map seen = bs.map seen := by
  induction h with
  | nil => rfl
  | cons hfirst _ ih =>
    rw [List.map_cons, List.map_cons, ih]
    rcases hfirst with rfl | ⟨hname, hagree⟩
    · rfl
    · rw [hagree.seen_eq hname]

end Source

namespace Chain

variable {chain : Chain} {source : Source} {block : List Source}

theorem mem_withBlock (h : source ∈ block) : source ∈ (chain.withBlock block).sources := by
  simp [withBlock, h]

end Chain

namespace Loader

variable {loader : Loader} {store : Store} {env other : Environment}

/-! ### What a load sees -/

/-- A load sees the sources of the chain, in the same places. -/
theorem chain_hide (h : env.chain.Distinct) :
    (hide env).chain = ⟨env.chain.sources.map Source.seen⟩ := by
  unfold hide
  cases hget : env.chain.get? defaultPropertiesName with
  | none =>
    have hall : env.chain.sources.map Source.seen = env.chain.sources := by
      refine (List.map_congr_left fun source hsource => ?_).trans (List.map_id _)
      refine Source.seen_of_name_ne fun hname => Chain.get?_eq_none_iff.mp hget ?_
      exact hname ▸ List.mem_map_of_mem hsource
    rw [hall]
  | some defaults =>
    have hname := Chain.name_of_get? hget
    refine congrArg Chain.mk (List.map_congr_left fun source hsource => ?_)
    change (if source.name = defaults.name then defaults.without hiddenKeys else source) = _
    rw [hname]
    split
    · next hdefaults =>
      obtain rfl : defaults = source := by
        have hself := h.get?_of_mem hsource
        rw [hdefaults, hget] at hself
        exact Option.some.inj hself
      exact (if_pos hname).symm
    · next hordinary => exact (Source.seen_of_name_ne hordinary).symm

/-- Environments that agree beside the hidden keys look the same to a load. -/
theorem hide_eq (hdistinct : env.chain.Distinct) (h : env.AgreeBeside hiddenKeys other) :
    other.chain.Distinct ∧ hide env = hide other := by
  have hseen := Source.map_seen_eq h.sources
  have hother : other.chain.Distinct := by
    have hnames := congrArg (List.map Source.name) hseen
    simp only [List.map_map, Function.comp_def, Source.name_seen] at hnames
    rw [Chain.Distinct, Chain.names, ← hnames]
    exact hdistinct
  refine ⟨hother, ?_⟩
  have hchain : (hide env).chain = (hide other).chain := by
    rw [chain_hide hdistinct, chain_hide hother, hseen]
  have hactive : (hide env).activeNames = (hide other).activeNames := by
    rw [activeNames_hide, activeNames_hide, h.activeNames_eq]
  have hdefaults : (hide env).defaultNames = (hide other).defaultNames := by
    rw [defaultNames_hide, defaultNames_hide, h.defaultNames_eq]
  generalize hide env = seen at hchain hactive hdefaults ⊢
  generalize hide other = seenOther at hchain hactive hdefaults ⊢
  cases seen
  cases seenOther
  simp only [Environment.mk.injEq]
  exact ⟨hchain, hactive, hdefaults⟩

/-! ### Two loads -/

/-- The run of a load depends on what the load sees alone. -/
theorem progress_congr (loader : Loader) (store : Store) (h : hide env = hide other) :
    loader.progress store env = loader.progress store other := by
  unfold progress
  rw [h]

/-- Loads of environments that look the same go the same way: they end with the same run, cut
short by the same failure, if any, and collect the same sources. -/
theorem run_congr (loader : Loader) (store : Store) (h : hide env = hide other) :
    loader.lastRun store env = loader.lastRun store other ∧
      loader.interruption store env = loader.interruption store other ∧
      loader.layers store env = loader.layers store other := by
  have hprogress := progress_congr loader store h
  have hrun : loader.lastRun store env = loader.lastRun store other := by
    rw [← fst_progress, ← fst_progress, hprogress]
  exact ⟨hrun, congrArg Prod.snd hprogress, by rw [layers, hrun, layers]⟩

/-- The report of a load names what its run had when it was over. -/
theorem report_load {report : Report} (hdistinct : env.chain.Distinct)
    (h : (loader.load store env).result = .ok report) :
    loader.searched (hide env) = .ok (report.locations, report.names) ∧
      report.processed = (loader.lastRun store env).queue.processed ∧
      report.added = (loader.layers store env).collected.map Source.name ∧
      (loader.load store env).env.chain =
        env.chain.withBlock (loader.layers store env).collected := by
  have hending : Ending loader store env (loader.load store env) := ending_load hdistinct
  generalize loader.load store env = outcome at h hending ⊢
  cases hending with
  | cutShort => cases h
  | refused => cases h
  | loaded _ hsearched =>
    cases h
    exact ⟨hsearched, rfl, rfl, rfl⟩

/-- An added source stands in the chain after a load. -/
theorem get?_added {report : Report} {source : Source} (hdistinct : env.chain.Distinct)
    (h : (loader.load store env).result = .ok report)
    (hsource : source ∈ (loader.layers store env).collected) :
    (loader.load store env).env.chain.get? source.name = some source := by
  obtain ⟨-, -, -, hchain⟩ := report_load hdistinct h
  rw [hchain]
  obtain ⟨hnodup, -⟩ := names_collected loader store env
  exact (hdistinct.withBlock hnodup).get?_of_mem (Chain.mem_withBlock hsource)

/-- Two loads of environments that differ only in what their default properties activate or include
emit the same events. Their runs are cut short by the same failure, if any, and then both loads
fail with it. If both succeed, they report the same but for the active profiles, and the sources
that they add are the same. -/
theorem load_agrees (loader : Loader) (store : Store) (hdistinct : env.chain.Distinct)
    (h : env.AgreeBeside hiddenKeys other) :
    (loader.load store other).events = (loader.load store env).events ∧
    loader.interruption store other = loader.interruption store env ∧
    (∀ failure, loader.interruption store env = some failure →
      (loader.load store env).result = .error failure ∧
        (loader.load store other).result = .error failure) ∧
    ∀ report report', (loader.load store env).result = .ok report →
      (loader.load store other).result = .ok report' →
        report' = { report with active := report'.active } ∧
        ∀ name ∈ report.added, ∃ source, source.name = name ∧
          (loader.load store env).env.chain.get? name = some source ∧
          (loader.load store other).env.chain.get? name = some source := by
  obtain ⟨hother, hhide⟩ := hide_eq hdistinct h
  obtain ⟨hrun, hinterruption, hlayers⟩ := run_congr loader store hhide
  refine ⟨?_, hinterruption.symm, fun failure hfailure => ?_, fun report report' hload hload' => ?_⟩
  · rw [events_load, events_load, hrun]
  · exact ⟨((chain_load loader store hdistinct).1 failure hfailure).1,
      ((chain_load loader store hother).1 failure (hinterruption ▸ hfailure)).1⟩
  · obtain ⟨hsearched, hprocessed, hadded, -⟩ := report_load hdistinct hload
    obtain ⟨hsearched', hprocessed', hadded', -⟩ := report_load hother hload'
    rw [← hhide] at hsearched'
    rw [← hrun] at hprocessed'
    rw [← hlayers] at hadded'
    constructor
    · obtain ⟨hlocations, hnames⟩ := Prod.mk.inj (Except.ok.inj (hsearched'.symm.trans hsearched))
      change (⟨_, _, _, _, _⟩ : Report) = ⟨_, _, _, _, _⟩
      rw [hlocations, hnames, hprocessed', hadded', hprocessed, hadded]
    · intro name hname
      rw [hadded] at hname
      obtain ⟨source, hsource, rfl⟩ := List.mem_map.mp hname
      exact ⟨source, rfl, get?_added hdistinct hload hsource,
        get?_added hother hload' (hlayers ▸ hsource)⟩

/-! ### A file that refers to what is hidden -/

/-- The file includes the profiles that the chain includes, or else another one. -/
def referringStore : Store :=
  .ofTexts [("file:/application.properties", "profiles.include=$\x7bprofiles.include:cloud\x7d\n")]

/-- The default properties of this environment activate a profile, where those of
`midwayEnvironment` include one. -/
def activatingEnvironment : Environment where
  chain := ⟨[.ofPairs "system" [("a", "0")],
    .ofPairs defaultPropertiesName [("a", "9"), ("profiles.active", "prod")],
    .ofPairs "last" [("b", "2")]]⟩

def referringReport : Report where
  locations := ["file:/"]
  names := ["application"]
  processed := [.unscoped, .requested "cloud", .fallback "default"]
  added := ["applicationConfig: [file:/application.properties]"]
  active := ["dev", "cloud"]

theorem load_agrees_midway :
    midwayEnvironment.AgreeBeside hiddenKeys activatingEnvironment ∧
      (plainDirectory.load referringStore midwayEnvironment).result = .ok referringReport ∧
      (plainDirectory.load referringStore activatingEnvironment).result =
        .ok { referringReport with active := ["prod", "cloud"] } ∧
      (plainDirectory.load referringStore activatingEnvironment).events =
        (plainDirectory.load referringStore midwayEnvironment).events ∧
      ∀ name ∈ referringReport.added, ∃ source, source.name = name ∧
        (plainDirectory.load referringStore midwayEnvironment).env.chain.get? name =
          some source ∧
        (plainDirectory.load referringStore activatingEnvironment).env.chain.get? name =
          some source := by
  have hagree : midwayEnvironment.AgreeBeside hiddenKeys activatingEnvironment := by
    refine ⟨.cons (.inl rfl) (.cons (.inr ⟨rfl, rfl, rfl, ?_⟩) (.cons (.inl rfl) .nil)), rfl, rfl⟩
    decide +kernel
  have hload : (plainDirectory.load referringStore midwayEnvironment).result =
      .ok referringReport := by decide +kernel
  have hload' : (plainDirectory.load referringStore activatingEnvironment).result =
      .ok { referringReport with active := ["prod", "cloud"] } := by decide +kernel
  obtain ⟨hevents, -, -, hreports⟩ :=
    load_agrees plainDirectory referringStore (by decide +kernel) hagree
  exact ⟨hagree, hload, hload', hevents, (hreports _ _ hload hload').2⟩

end Loader

end LayeredConfig
