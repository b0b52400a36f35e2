import LayeredConfig.Environment
import LayeredConfig.Proofs.Order
import Mathlib.Data.List.Basic

/-!
# Two ways to read the active profiles

Where no profile was set, the environment takes the active profiles from the value of the reserved
key. A load takes them from the first source that gives the key a list, as one value or as indexed
entries, once some source has the key itself. Both ways read a single source. It is the same one,
unless indexed entries stand above the first source with the key itself, which only the load sees.

## Main definitions

* `Source.givesList`: a source has a key or indexed entries for it.
* `Source.listed?`: the names that a key lists in a source.
* `Environment.ReadersAgree`: both ways give the same names, or both fail.

## Main results

* `Source.firstList?_eq_find?`: the list of a key is read from one source.
* `Environment.readersAgree_iff`: exactly when both ways agree.
-/

namespace LayeredConfig

@[simp] theorem Profile.names_setOfNames (names : List String) :
    Profile.names (setOfNames names) = names.eraseDups := by
  rw [Profile.names, setOfNames, List.filterMap_map]
  exact List.filterMap_some

namespace Source

variable {source : Source} {key : String} {resolve : String → Except Failure String}

/-- The source has indexed entries for the key. -/
def hasIndexed (source : Source) (key : String) : Bool :=
  source.contains (indexedKey key 0)

/-- The source gives the key a list, as one value or as indexed entries. -/
def givesList (source : Source) (key : String) : Bool :=
  source.contains key || source.hasIndexed key

/-- The names that the key lists in the source, each once. There are none to be had where a
reference cannot be resolved. -/
def listed? (source : Source) (resolve : String → Except Failure String) (key : String) :
    Option (List String) :=
  (source.list? resolve key).toOption.map fun items => (items.getD []).eraseDups

/-! ### The list of a key in one source -/

theorem indexed_eq_nil_iff : source.indexed key = [] ↔ source.hasIndexed key = false := by
  rw [indexed, hasIndexed, contains, Option.isSome_eq_false_iff, Option.isNone_iff_eq_none]
  cases hsize : source.size with
  | zero =>
    have hentries : source.entries = [] := List.eq_nil_of_length_eq_zero hsize
    unfold get?
    cases hkind : source.kind <;> simp [hentries, Pairs.get?]
  | succ n =>
    rw [List.range_succ_eq_map, List.map_cons, List.takeWhile_cons]
    cases hfirst : source.get? (indexedKey key 0) <;> simp

private theorem isEmpty_of_mapM {α β : Type} {f : α → Except Failure β} {as : List α} {bs : List β}
    (h : as.mapM f = .ok bs) : bs.isEmpty = as.isEmpty := by
  cases as with
  | nil =>
    cases h
    rfl
  | cons a as =>
    rw [List.mapM_cons] at h
    obtain ⟨b, -, h⟩ := Failure.bind_eq_ok_iff.mp h
    obtain ⟨rest, -, h⟩ := Failure.bind_eq_ok_iff.mp h
    cases h
    rfl

/-- A source has no list for a key exactly where it gives it none. -/
theorem list?_eq_ok_none_iff :
    source.list? resolve key = .ok none ↔ source.givesList key = false := by
  rw [givesList, contains, list?]
  cases hplain : source.get? key with
  | some property =>
    simp only [Option.isSome_some, Bool.true_or, Bool.true_eq_false, iff_false]
    intro h
    obtain ⟨value, -, h⟩ := Failure.bind_eq_ok_iff.mp h
    cases h
  | none =>
    rw [Option.isSome_none, Bool.false_or, ← indexed_eq_nil_iff, ← List.isEmpty_iff]
    constructor
    · intro h
      obtain ⟨items, hitems, h⟩ := Failure.bind_eq_ok_iff.mp h
      rw [← isEmpty_of_mapM hitems]
      by_contra hsome
      rw [if_neg hsome] at h
      cases h
    · intro h
      rw [List.isEmpty_iff.mp h]
      rfl

/-! ### The list of a key in several sources -/

/-- The list of a key is that of the first source that gives it one. -/
theorem firstList?_eq_find? (sources : List Source) :
    firstList? sources resolve key =
      match sources.find? fun source => source.givesList key with
      | none => .ok none
      | some source => source.list? resolve key := by
  induction sources with
  | nil => rfl
  | cons source sources ih =>
    rw [firstList?, List.find?_cons]
    cases hgives : source.givesList key with
    | false =>
      rw [list?_eq_ok_none_iff.mpr hgives]
      exact ih
    | true =>
      cases hlist : source.list? resolve key with
      | error failure => exact hlist.symm
      | ok items =>
        cases items with
        | none => exact absurd (list?_eq_ok_none_iff.mp hlist) (by simp [hgives])
        | some items => exact hlist.symm

private theorem find?_givesList {sources : List Source}
    (h : ∀ source ∈ sources, source.contains key = false) :
    (sources.find? fun source => source.givesList key) =
      sources.find? fun source => source.hasIndexed key := by
  induction sources with
  | nil => rfl
  | cons source sources ih =>
    rw [List.forall_mem_cons] at h
    rw [List.find?_cons, List.find?_cons, ih h.2, givesList, h.1, Bool.false_or]

/-- Among sources of which the first ones lack the key, indexed entries in those go before the
value of the key. -/
theorem firstList?_append {above below : List Source}
    (habove : ∀ other ∈ above, other.contains key = false) (hsource : source.contains key = true) :
    firstList? (above ++ source :: below) resolve key =
      ((above.find? fun other => other.hasIndexed key).getD source).list? resolve key := by
  have hgives : source.givesList key = true := by
    rw [givesList, hsource, Bool.true_or]
  rw [firstList?_eq_find?, List.find?_append, find?_givesList habove, List.find?_cons, hgives]
  cases above.find? fun other => other.hasIndexed key <;> rfl

end Source

namespace Environment

variable {env : Environment} {above below : List Source} {source : Source}

/-- The environment and the load read the same names as active, each once, or both fail. -/
def ReadersAgree (env : Environment) : Prop :=
  env.active.toOption.map List.eraseDups =
    (env.profilesNamedBy Key.active).toOption.map Profile.names

/-- A chain that has a key has a first source with it. -/
theorem exists_split_of_contains {key : String} (h : env.contains key = true) :
    ∃ above source below, env.chain.sources = above ++ source :: below ∧
      (∀ other ∈ above, other.contains key = false) ∧ source.contains key = true := by
  have hsome : ∃ source ∈ env.chain.sources, source.contains key = true := by
    rw [contains, Chain.property?, List.findSome?_isSome_iff] at h
    exact h
  obtain ⟨above, source, below, hsplit, hsource, habove⟩ := exists_first hsome
  exact ⟨above, source, below, hsplit, fun other hother => by simpa using habove other hother,
    hsource⟩

/-- The property of a key is that of the first source with it. -/
theorem property?_of_split {key : String} {property : Property}
    (hsplit : env.chain.sources = above ++ source :: below)
    (habove : ∀ other ∈ above, other.contains key = false)
    (hsource : source.get? key = some property) : env.chain.property? key = some property := by
  have hnone : (above.findSome? fun other => other.get? key) = none := by
    refine List.findSome?_eq_none_iff.mpr fun other hother => ?_
    simpa [Source.contains] using habove other hother
  rw [Chain.property?, hsplit, List.findSome?_append, hnone, Option.none_or,
    List.findSome?_cons_of_isSome (by rw [hsource]; rfl), hsource]

/-- Where no profile was set, the active ones are those that the first source with the reserved key
lists there. -/
theorem active_of_split (h : env.activeNames = [])
    (hsplit : env.chain.sources = above ++ source :: below)
    (habove : ∀ other ∈ above, other.contains Key.active = false)
    (hsource : source.contains Key.active = true) :
    env.active.toOption.map List.eraseDups = source.listed? env.resolve Key.active := by
  obtain ⟨property, hproperty⟩ := Option.isSome_iff_exists.mp hsource
  rw [active, if_pos (by simp [h]), get?, property?_of_split hsplit habove hproperty,
    Source.listed?, Source.list?, hproperty]
  dsimp only
  cases env.resolve property.value <;> rfl

/-- A load takes the first list that the chain gives the reserved key. -/
theorem profilesNamedBy_of_split (hsplit : env.chain.sources = above ++ source :: below)
    (habove : ∀ other ∈ above, other.contains Key.active = false)
    (hsource : source.contains Key.active = true) :
    (env.profilesNamedBy Key.active).toOption.map Profile.names =
      ((above.find? fun other => other.hasIndexed Key.active).getD source).listed? env.resolve
        Key.active := by
  obtain ⟨property, hproperty⟩ := Option.isSome_iff_exists.mp hsource
  have hcontains : env.contains Key.active = true := by
    rw [contains, property?_of_split hsplit habove hproperty]
    rfl
  rw [profilesNamedBy, if_pos hcontains, hsplit, Source.firstList?_append habove hsource,
    Source.listed?]
  cases ((above.find? fun other => other.hasIndexed Key.active).getD source).list? env.resolve
    Key.active with
  | error failure => rfl
  | ok items => exact congrArg some (Profile.names_setOfNames _)

/-- Where no profile was set and the chain lacks the reserved key, no profile is active. -/
theorem readersAgree_of_absent (h : env.activeNames = [])
    (habsent : env.contains Key.active = false) : env.ReadersAgree := by
  have hproperty : env.chain.property? Key.active = none := by
    simpa [contains] using habsent
  rw [ReadersAgree, profilesNamedBy, if_neg (by simp [habsent]), active, if_pos (by simp [h]),
    get?, hproperty]
  rfl

/-- Where no profile was set, the two ways agree iff indexed entries that stand above the first
source with the reserved key list the same names as that source. -/
theorem readersAgree_iff (h : env.activeNames = []) :
    env.ReadersAgree ↔ ∀ above source below,
      env.chain.sources = above ++ source :: below →
      (∀ other ∈ above, other.contains Key.active = false) → source.contains Key.active = true →
      ∀ first, (above.find? fun other => other.hasIndexed Key.active) = some first →
        first.listed? env.resolve Key.active = source.listed? env.resolve Key.active := by
  constructor
  · intro hagree above source below hsplit habove hsource first hfirst
    rw [ReadersAgree, active_of_split h hsplit habove hsource,
      profilesNamedBy_of_split hsplit habove hsource, hfirst, Option.getD_some] at hagree
    exact hagree.symm
  · intro hlists
    cases hcontains : env.contains Key.active with
    | false => exact readersAgree_of_absent h hcontains
    | true =>
      obtain ⟨above, source, below, hsplit, habove, hsource⟩ := exists_split_of_contains hcontains
      rw [ReadersAgree, active_of_split h hsplit habove hsource,
        profilesNamedBy_of_split hsplit habove hsource]
      cases hfirst : above.find? fun other => other.hasIndexed Key.active with
      | none => rfl
      | some first => exact (hlists above source below hsplit habove hsource first hfirst).symm

/-! ### Indexed entries above the reserved key -/

/-- Two names as indexed entries, one of them the default of a reference. -/
def indexedNames : Source :=
  .ofPairs "commandLineArgs"
    [("profiles.active[0]", "$\x7bregion:eu\x7d"), ("profiles.active[1]", "cloud")]

/-- The same names as one value, among environment variables. -/
def plainNames : Source :=
  .ofVariables [("PROFILES_ACTIVE", "eu, cloud, eu")]

theorem readersAgree_twiceListed :
    let env : Environment := { chain := .ofSources [indexedNames, plainNames] }
    env.activeNames = [] ∧ env.ReadersAgree := by
  intro env
  refine ⟨rfl, (readersAgree_iff rfl).mpr ?_⟩
  intro above source below hsplit habove hsource first hfirst
  have hsources : env.chain.sources = [indexedNames, plainNames] := by decide +kernel
  have hindexed : indexedNames.contains Key.active = false := by decide +kernel
  rw [hsources] at hsplit
  match above with
  | [] =>
    cases hsplit
    rw [hindexed] at hsource
    cases hsource
  | [other] =>
    cases hsplit
    obtain rfl : indexedNames = first := by
      have hfind : [indexedNames].find? (fun other => other.hasIndexed Key.active) =
          some indexedNames := by decide +kernel
      exact Option.some.inj (hfind.symm.trans hfirst)
    decide +kernel
  | other :: third :: above => simp at hsplit

/-- Indexed entries stand above the value of the key, and list other names: the load reads them, the
environment does not. -/
theorem indexed_above_unread :
    let env : Environment :=
      { chain := .ofSources [.ofPairs "first" [("profiles.active[0]", "dev")],
          .ofPairs "second" [("profiles.active", "cloud")]] }
    env.activeNames = [] ∧ env.active = .ok ["cloud"] ∧
      env.profilesNamedBy Key.active = .ok [.requested "dev"] ∧ ¬ env.ReadersAgree := by
  intro env
  have hactive : env.active = .ok ["cloud"] := by decide +kernel
  have hnamed : env.profilesNamedBy Key.active = .ok [.requested "dev"] := by decide +kernel
  refine ⟨rfl, hactive, hnamed, fun hagree => ?_⟩
  rw [ReadersAgree, hactive, hnamed] at hagree
  exact absurd hagree (by decide)

end Environment

end LayeredConfig
