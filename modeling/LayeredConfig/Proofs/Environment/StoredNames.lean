import LayeredConfig.Environment
import LayeredConfig.Proofs.Order
import LayeredConfig.Proofs.Text
import Mathlib.Data.List.Nodup

/-!
# The active profiles that are stored

The active profiles can be set, all at once or one more at a time. Setting them checks every name
and drops what is repeated. Adding one checks that name alone: where no profile was set before, the
others are taken from the chain as they stand there. So the names that are stored are distinct and
may all be activated, unless they begin with the names that the chain gives, and those are not.

## Main definitions

* `Environment.Storable`: no name is repeated, and every one may be activated.
* `Environment.Call`, `Environment.afterAll`: the calls that set active profiles, and what they do.
* `Environment.Sound`: the stored names are storable, or begin with what the chain gives.

## Main results

* `Environment.Sound.after`: a call keeps an environment sound.
* `Environment.storable_activeNames_iff`: exactly when the stored names are storable.
-/

namespace LayeredConfig

/-! ### Names that may be activated -/

theorem Profile.validate_eq_ok_iff {name : String} :
    validate name = .ok () ↔ Text.isAllBlank name = false ∧ name.toList.head? ≠ some '!' := by
  unfold validate
  split
  · next hblank => simp [hblank]
  · next hblank =>
    split
    · next hmark => simp [hmark]
    · next hmark => simp [hblank, hmark]

theorem Profile.forM_validate_eq_ok_iff {names : List String} :
    names.forM validate = .ok () ↔ ∀ name ∈ names, validate name = .ok () := by
  induction names with
  | nil => simp [List.forM, pure, Except.pure]
  | cons name names ih =>
    change (validate name >>= fun _ => names.forM validate) = .ok () ↔ _
    rw [Failure.bind_eq_ok_iff, List.forall_mem_cons, ih]
    exact ⟨fun ⟨(), hname, hnames⟩ => ⟨hname, hnames⟩, fun ⟨hname, hnames⟩ => ⟨(), hname, hnames⟩⟩

namespace Environment

/-- No name is repeated, and every one may be activated. -/
structure Storable (names : List String) : Prop where
  nodup : names.Nodup
  valid : ∀ name ∈ names, Profile.validate name = .ok ()

variable {env changed : Environment} {names stored : List String} {name : String}

theorem storable_nil : Storable [] :=
  ⟨List.nodup_nil, by simp⟩

theorem Storable.of_start (h : Storable stored) (hstart : names <+: stored) : Storable names :=
  ⟨h.nodup.sublist hstart.sublist, fun name hname => h.valid name (hstart.subset hname)⟩

/-- A new name that may be activated can be added at the end. -/
theorem Storable.concat (h : Storable names) (hname : Profile.validate name = .ok ())
    (hnew : name ∉ names) : Storable (names ++ [name]) where
  nodup := by
    rw [← List.concat_eq_append]
    exact List.Nodup.concat hnew h.nodup
  valid other hother := by
    rcases List.mem_append.mp hother with hother | hother
    · exact h.valid other hother
    · rwa [List.mem_singleton.mp hother]

/-! ### The names that the chain gives -/

/-- The active profiles where none was set: those that the chain gives. -/
def given (chain : Chain) : Except Failure (List String) :=
  active { chain }

theorem active_eq_given (h : env.activeNames = []) : env.active = given env.chain := by
  rw [active, if_pos (by simp [h])]
  rfl

/-- What the chain gives has text, so only a mark at its start keeps a name from being activated. -/
theorem storable_iff_of_given {chain : Chain} (h : given chain = .ok names) :
    Storable names ↔ names.Nodup ∧ ∀ name ∈ names, name.toList.head? ≠ some '!' := by
  have htext : ∀ name ∈ names, Text.isAllBlank name = false := by
    obtain ⟨value, -, h⟩ := Failure.bind_eq_ok_iff.mp h
    cases h
    cases value with
    | none => simp
    | some value => exact fun name hname => Text.isAllBlank_of_mem_splitList hname
  refine ⟨fun ⟨hnodup, hvalid⟩ => ⟨hnodup, fun name hname => ?_⟩,
    fun ⟨hnodup, hmark⟩ => ⟨hnodup, fun name hname => ?_⟩⟩
  · exact (Profile.validate_eq_ok_iff.mp (hvalid name hname)).2
  · exact Profile.validate_eq_ok_iff.mpr ⟨htext name hname, hmark name hname⟩

/-! ### Calls -/

/-- A call that sets active profiles. -/
inductive Call
  | addActive (name : String)
  | setActive (names : List String)
  deriving DecidableEq, Repr

/-- The environment to which a call leads, or its failure. -/
def outcome (env : Environment) : Call → Except Failure Environment
  | .addActive name => env.addActive name
  | .setActive names => env.setActive names

/-- The environment after a call; a call that fails leaves it as it is. -/
def after (env : Environment) (call : Call) : Environment :=
  match env.outcome call with
  | .ok changed => changed
  | .error _ => env

/-- The environment after calls, one after the other. -/
def afterAll (env : Environment) (calls : List Call) : Environment :=
  calls.foldl Environment.after env

/-- The name joins the active profiles, unless it is one of them. -/
theorem addActive_eq_ok (h : env.addActive name = .ok changed) :
    Profile.validate name = .ok () ∧ ∃ names, env.active = .ok names ∧
      changed = { env with activeNames := if name ∈ names then names else names ++ [name] } := by
  unfold addActive at h
  obtain ⟨⟨⟩, hname, h⟩ := Failure.bind_eq_ok_iff.mp h
  obtain ⟨names, hnames, h⟩ := Failure.bind_eq_ok_iff.mp h
  cases h
  exact ⟨hname, names, hnames, by simp⟩

/-- The names that are set take the place of all others. -/
theorem setActive_eq_ok (h : env.setActive names = .ok changed) :
    Storable names.eraseDups ∧ changed = { env with activeNames := names.eraseDups } := by
  unfold setActive at h
  obtain ⟨⟨⟩, hnames, h⟩ := Failure.bind_eq_ok_iff.mp h
  cases h
  refine ⟨⟨nodup_eraseDups names, fun name hname => ?_⟩, rfl⟩
  exact Profile.forM_validate_eq_ok_iff.mp hnames name (List.mem_eraseDups.mp hname)

/-! ### What calls keep -/

/-- The stored names are storable, or they begin with the names that the chain gives, which are
not. -/
def Sound (env : Environment) : Prop :=
  Storable env.activeNames ∨
    ∃ names, given env.chain = .ok names ∧ ¬ Storable names ∧ names <+: env.activeNames

/-- The names to which an added one is joined are sound, too. -/
theorem Sound.active (h : env.Sound) (hactive : env.active = .ok names) :
    Storable names ∨ ∃ first, given env.chain = .ok first ∧ ¬ Storable first ∧ first <+: names := by
  by_cases hnone : env.activeNames = []
  · rw [active_eq_given hnone] at hactive
    by_cases hnames : Storable names
    · exact .inl hnames
    · exact .inr ⟨names, hactive, hnames, List.prefix_rfl⟩
  · rw [Environment.active, if_neg (by simpa using hnone)] at hactive
    cases hactive
    exact h

/-- A call leaves the chain as it is. -/
@[simp] theorem chain_after (call : Call) : (env.after call).chain = env.chain := by
  unfold Environment.after
  split
  · next changed houtcome =>
    cases call with
    | addActive name =>
      obtain ⟨-, names, -, rfl⟩ := addActive_eq_ok houtcome
      rfl
    | setActive names =>
      obtain ⟨-, rfl⟩ := setActive_eq_ok houtcome
      rfl
  · rfl

/-- A call keeps an environment sound. -/
theorem Sound.after (h : env.Sound) (call : Call) : (env.after call).Sound := by
  unfold Environment.after
  split
  · next changed houtcome =>
    cases call with
    | addActive name =>
      obtain ⟨hname, names, hactive, rfl⟩ := addActive_eq_ok houtcome
      have hnames := h.active hactive
      by_cases hmem : name ∈ names
      · rwa [Sound, if_pos hmem]
      · rw [Sound, if_neg hmem]
        refine hnames.imp (fun hstorable => hstorable.concat hname hmem) ?_
        rintro ⟨first, hfirst, hbad, hstart⟩
        exact ⟨first, hfirst, hbad, hstart.trans (List.prefix_append ..)⟩
    | setActive names =>
      obtain ⟨hstorable, rfl⟩ := setActive_eq_ok houtcome
      exact .inl hstorable
  · exact h

theorem chain_afterAll (calls : List Call) : (env.afterAll calls).chain = env.chain := by
  induction calls generalizing env with
  | nil => rfl
  | cons call calls ih => exact ih.trans (chain_after call)

theorem Sound.afterAll (h : env.Sound) (calls : List Call) : (env.afterAll calls).Sound := by
  induction calls generalizing env with
  | nil => exact h
  | cons call calls ih => exact ih (h.after call)

/-- After any calls, in an environment where no profile was set before, a call that fails leaves
the environment as it is, and the stored names are distinct and may all be activated, unless they
begin with the names that the chain gives, and one of those is repeated or begins with a mark. -/
theorem storable_activeNames_iff (chain : Chain) (calls : List Call) :
    let env := afterAll { chain } calls
    (∀ call failure, env.outcome call = .error failure → env.after call = env) ∧
      (Storable env.activeNames ↔
        ∀ names, given chain = .ok names → names <+: env.activeNames →
          names.Nodup ∧ ∀ name ∈ names, name.toList.head? ≠ some '!') := by
  intro env
  refine ⟨fun call failure h => by rw [Environment.after, h], fun h names hgiven hstart => ?_,
    fun h => ?_⟩
  · exact (storable_iff_of_given hgiven).mp (h.of_start hstart)
  · have hsound : env.Sound := Sound.afterAll (.inl storable_nil) calls
    refine hsound.resolve_right ?_
    rintro ⟨names, hgiven, hbad, hstart⟩
    rw [chain_afterAll] at hgiven
    exact hbad ((storable_iff_of_given hgiven).mpr (h names hgiven hstart))

/-! ### Names that are taken from a chain -/

/-- A chain that gives two names. -/
def pairChain : Chain := .ofSources [.ofPairs "commandLineArgs" [("profiles.active", "dev, local")]]

/-- A call that fails, one that takes the names of the chain, two that set others, the last of them
none, and one that takes the names of the chain again. -/
def mixedCalls : List Call :=
  [.addActive "!base", .addActive "base", .setActive ["cloud", "cloud"], .setActive [],
    .addActive "dev"]

theorem storable_mixedCalls :
    (∀ names, given pairChain = .ok names →
      names <+: (afterAll { chain := pairChain } mixedCalls).activeNames →
        names.Nodup ∧ ∀ name ∈ names, name.toList.head? ≠ some '!') ∧
      (afterAll { chain := pairChain } mixedCalls).activeNames = ["dev", "local"] ∧
      Storable (afterAll { chain := pairChain } mixedCalls).activeNames := by
  have hgiven : given pairChain = .ok ["dev", "local"] := by decide +kernel
  have hnames : ∀ names, given pairChain = .ok names →
      names <+: (afterAll { chain := pairChain } mixedCalls).activeNames →
        names.Nodup ∧ ∀ name ∈ names, name.toList.head? ≠ some '!' := by
    intro names h _
    cases hgiven.symm.trans h
    decide
  exact ⟨hnames, by decide +kernel, (storable_activeNames_iff pairChain mixedCalls).2.mpr hnames⟩

/-- The name that a chain gives twice is stored twice. -/
theorem repeated_name_stored :
    let chain := Chain.ofSources [.ofPairs "commandLineArgs" [("profiles.active", "dev,dev")]]
    (afterAll { chain } [.addActive "base"]).activeNames = ["dev", "dev", "base"] ∧
      ¬ Storable (afterAll { chain } [.addActive "base"]).activeNames := by
  intro chain
  have hstored : (afterAll { chain } [.addActive "base"]).activeNames = ["dev", "dev", "base"] := by
    decide +kernel
  refine ⟨hstored, fun h => ?_⟩
  have hnodup := h.nodup
  rw [hstored] at hnodup
  exact absurd hnodup (by decide)

end Environment

end LayeredConfig
