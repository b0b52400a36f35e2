import LayeredConfig.Proofs.Layers.Groups
import Mathlib.Data.List.Nodup

/-!
# The order of the collected sources

The sources of a group that began later stand before those of an earlier one. In a group, the
order depends on where its names were picked up: those that were appended stand in the order of
their last pickups, and those that were put at the front stand before them, in the opposite
order of their first pickups.

## Main definitions

* `Placed`: how two names of a group stand, by the pickups they come from.

## Main results

* `Layers.before_collected_iff`, `Layers.before_collected_of_keys`: the order of two sources of
  one group, and of two groups.
* `Layers.before_names_iff`: the order in a group.
-/

namespace LayeredConfig

namespace Layers

variable {layers : Layers} {name : String} {key : Option String}

/-! ### Groups that stand one after the other -/

private theorem mem_flatMap_names (h : name ∈ layers.names key) :
    name ∈ layers.keys.reverse.flatMap layers.names :=
  List.mem_flatMap.mpr ⟨key, List.mem_reverse.mpr (mem_keys_of_mem_names h), h⟩

section Order

variable {a b : String} (hkeys : layers.keys.Nodup)

include hkeys

/-- A source leads all groups when it leads its own one, and the other is in no other group. -/
private theorem leads_flatMap_names (ha : a ∈ layers.names key)
    (honly : ∀ other, b ∈ layers.names other → other = key) (h : Leads (layers.names key) a b) :
    Leads (layers.keys.reverse.flatMap layers.names) a b := by
  obtain ⟨ks, ks', hsplit⟩ := List.append_of_mem (List.mem_reverse.mpr (mem_keys_of_mem_names ha))
  have hnodup : layers.keys.reverse.Nodup := List.nodup_reverse.mpr hkeys
  rw [hsplit] at hnodup ⊢
  refine leads_flatMap (fun other hother hb => ?_) h
  exact (List.nodup_append.mp hnodup).2.2 other hother key (by simp) (honly other hb)

/-- Two sources that were collected for one profile only stand as in its group. -/
theorem before_collected_iff (hnames : (layers.names key).Nodup) (ha : a ∈ layers.names key)
    (hb : b ∈ layers.names key) (honly : ∀ other, a ∈ layers.names other → other = key)
    (honly' : ∀ other, b ∈ layers.names other → other = key) (hab : a ≠ b) :
    Before (layers.collected.map Source.name) a b ↔ Before (layers.names key) a b := by
  rw [collected_names hkeys, before_eraseDups_iff (mem_flatMap_names hb) hab]
  constructor
  · intro h
    refine (before_or_before ha hb hab).resolve_right fun hba => ?_
    exact h.asymm hab (leads_flatMap_names hkeys hb honly (hba.leads hnames))
  · intro h
    exact leads_flatMap_names hkeys ha honly' (h.leads hnames)

/-- The sources of a group stand before those that are in earlier groups only. -/
theorem before_collected_of_keys {later : Option String} (ha : a ∈ layers.names later)
    (hb : b ∈ layers.names key) (honly : ∀ other, b ∈ layers.names other →
      Before layers.keys other later) : Before (layers.collected.map Source.name) a b := by
  have hnodup : layers.keys.reverse.Nodup := List.nodup_reverse.mpr hkeys
  have hlater : b ∉ layers.names later := fun hb => (honly later hb).ne hkeys rfl
  have hab : a ≠ b := fun hab => hlater (hab ▸ ha)
  rw [collected_names hkeys, before_eraseDups_iff (mem_flatMap_names hb) hab]
  obtain ⟨ks, ks', hsplit⟩ := List.append_of_mem (List.mem_reverse.mpr (mem_keys_of_mem_names ha))
  rw [hsplit]
  refine leads_flatMap (fun other hother hmem => ?_) (leads_of_notMem ha hlater)
  have hbefore : Before layers.keys.reverse other later := by
    rw [hsplit]
    exact before_append hother (by simp)
  exact hbefore.asymm hnodup (before_reverse.mpr (honly other hmem))

end Order

/-- What was collected stands in no place twice. -/
theorem nodup_collected_names (h : layers.keys.Nodup) :
    (layers.collected.map Source.name).Nodup := by
  rw [collected_names h]
  exact nodup_eraseDups _

/-! ### The order in a group -/

end Layers

/-- Of the names that were appended in the order `appended`, and those that were then put at the
front in the order `prepended` unless they were there, `a` stands before `b`. -/
def Placed (appended prepended : List String) (a b : String) : Prop :=
  (b ∈ appended ∧ (a ∈ appended → Outlasts appended b a)) ∨
    (b ∉ appended ∧ a ∉ appended ∧ Leads prepended b a)

namespace Layers

variable {early late : List Pickup} {a b : String}

theorem before_absent_iff (ha : a ∈ (gather {} early).absent late)
    (hb : b ∈ (gather {} early).absent late) (hab : a ≠ b) :
    Before ((gather {} early).absent late) a b ↔ Leads (late.map Pickup.name) a b := by
  have hfilter {s : String} (h : s ∈ (gather {} early).absent late) :
      (!(gather {} early).contains s) = true :=
    (List.mem_filter.mp (List.mem_eraseDups.mp h)).2
  have hmem := List.mem_eraseDups.mp hb
  rw [absent, before_eraseDups_iff hmem hab]
  exact leads_filter (hfilter ha) (hfilter hb) hab

section

variable (hearly : ∀ pickup ∈ early, pickup.placement = .append)

include hearly

theorem contains_gather_append :
    (gather {} early).contains name = true ↔ name ∈ early.map Pickup.name := by
  have hkeys : (gather {} early).keys.Nodup := nodup_keys_gather (by simp [keys]) early
  rw [contains_iff hkeys]
  simp only [names_gather_append hearly, List.mem_reverse, List.mem_eraseDups, Pickup.namesFor,
    List.mem_map, List.mem_filter, decide_eq_true_eq]
  constructor
  · rintro ⟨key, pickup, ⟨hpickup, -⟩, hname⟩
    exact ⟨pickup, hpickup, hname⟩
  · rintro ⟨pickup, hpickup, hname⟩
    exact ⟨pickup.profile.name?, pickup, ⟨hpickup, rfl⟩, hname⟩

theorem mem_absent : name ∈ (gather {} early).absent late ↔
    name ∈ late.map Pickup.name ∧ name ∉ early.map Pickup.name := by
  rw [absent, List.mem_eraseDups, List.mem_filter, Bool.not_eq_eq_eq_not, Bool.not_true,
    ← Bool.not_eq_true, contains_gather_append hearly]

theorem before_names_append_iff (ha : a ∈ Pickup.namesFor early key)
    (hab : a ≠ b) : Before ((gather {} early).names key) a b ↔
      Outlasts (Pickup.namesFor early key) b a := by
  rw [names_gather_append hearly, before_reverse,
    before_eraseDups_iff (List.mem_reverse.mpr ha) (Ne.symm hab), leads_reverse]

variable (hlate : ∀ pickup ∈ late,
  pickup.placement = .prependIfAbsent ∧ pickup.profile = .unscoped)

include hlate

omit hearly in
private theorem topped_early (early : List Pickup) :
    Topped (gather {} early) late ((gather {} early).gather late) :=
  topped_gather (nodup_keys_gather (by simp [keys]) early) hlate

/-- The names in a group are those that were appended to it, and in the group of the unscoped
profile those that were put at the front because no group had them. -/
theorem mem_names_iff : name ∈ ((gather {} early).gather late).names key ↔
    name ∈ Pickup.namesFor early key ∨
      key = none ∧ name ∈ late.map Pickup.name ∧ name ∉ early.map Pickup.name := by
  have htopped := topped_early hlate early
  have hgroup : name ∈ (gather {} early).names key ↔ name ∈ Pickup.namesFor early key := by
    rw [names_gather_append hearly, List.mem_reverse, List.mem_eraseDups, List.mem_reverse]
  cases key with
  | none =>
    rw [htopped.names_none, List.mem_append, List.mem_reverse, mem_absent hearly, hgroup]
    simp [or_comm]
  | some key =>
    rw [htopped.names_some, hgroup]
    simp

theorem nodup_names (key : Option String) :
    (((gather {} early).gather late).names key).Nodup := by
  have htopped := topped_early hlate early
  have hgroup (key : Option String) : ((gather {} early).names key).Nodup := by
    rw [names_gather_append hearly]
    exact List.nodup_reverse.mpr (nodup_eraseDups _)
  cases key with
  | none =>
    rw [htopped.names_none]
    refine List.nodup_append.mpr ⟨List.nodup_reverse.mpr (nodup_eraseDups _), hgroup none, ?_⟩
    rintro name habsent other hother rfl
    have hnew := ((mem_absent hearly).mp (List.mem_reverse.mp habsent)).2
    refine hnew ((contains_gather_append hearly).mp ?_)
    exact (contains_iff (nodup_keys_gather (by simp [keys]) early)).mpr ⟨none, hother⟩
  | some key =>
    rw [htopped.names_some]
    exact hgroup (some key)

/-- Two names of a group stand as their pickups place them. -/
theorem before_names_iff (ha : a ∈ ((gather {} early).gather late).names key)
    (hb : b ∈ ((gather {} early).gather late).names key) (hab : a ≠ b) :
    Before (((gather {} early).gather late).names key) a b ↔
      Placed (Pickup.namesFor early key) (late.map Pickup.name) a b := by
  have htopped := topped_early hlate early
  have hnodup := nodup_names hearly hlate key
  rw [mem_names_iff hearly hlate] at ha hb
  cases key with
  | none =>
    have hnew {s : String} (hs : s ∉ Pickup.namesFor early none)
        (h : s ∈ Pickup.namesFor early none ∨
          none = (none : Option String) ∧ s ∈ late.map Pickup.name ∧
            s ∉ early.map Pickup.name) : s ∈ (gather {} early).absent late :=
      (mem_absent hearly).mpr (h.resolve_left hs).2
    have hold {s : String} (hs : s ∈ Pickup.namesFor early none) :
        s ∈ (gather {} early).names none := by
      rw [names_gather_append hearly, List.mem_reverse, List.mem_eraseDups, List.mem_reverse]
      exact hs
    rw [htopped.names_none] at hnodup ⊢
    by_cases hbold : b ∈ Pickup.namesFor early none
    · by_cases haold : a ∈ Pickup.namesFor early none
      · rw [before_iff_of_sublist (List.sublist_append_right ..) hnodup (hold haold) (hold hbold)
          hab, before_names_append_iff hearly haold hab]
        simp [Placed, haold, hbold]
      · have hbefore := before_append (List.mem_reverse.mpr (hnew haold ha)) (hold hbold)
        exact iff_of_true hbefore (.inl ⟨hbold, fun h => absurd h haold⟩)
    · have hbnew := hnew hbold hb
      by_cases haold : a ∈ Pickup.namesFor early none
      · have hbefore := before_append (List.mem_reverse.mpr hbnew) (hold haold)
        refine iff_of_false (hbefore.asymm hnodup) ?_
        simp [Placed, haold, hbold]
      · have hanew := hnew haold ha
        rw [before_iff_of_sublist (List.sublist_append_left ..) hnodup
          (List.mem_reverse.mpr hanew) (List.mem_reverse.mpr hbnew) hab, before_reverse,
          before_absent_iff hbnew hanew (Ne.symm hab)]
        simp [Placed, haold, hbold]
  | some key =>
    have ha : a ∈ Pickup.namesFor early (some key) := ha.resolve_right (by simp)
    have hb : b ∈ Pickup.namesFor early (some key) := hb.resolve_right (by simp)
    rw [htopped.names_some, before_names_append_iff hearly ha hab]
    simp [Placed, ha, hb]

/-! ### The order of the groups -/

omit hlate in
/-- Groups that are appended to stand in the order of their first pickups. -/
theorem before_keys_append_iff {first later : Option String}
    (hlater : later ∈ early.map fun pickup => pickup.profile.name?) (hne : first ≠ later) :
    Before (gather {} early).keys first later ↔
      Leads (early.map fun pickup => pickup.profile.name?) first later := by
  rw [keys_gather_append hearly, before_eraseDups_iff hlater hne]

omit hearly in
/-- What is put at the front leaves the groups in their order. -/
theorem before_keys_of_append {first later : Option String}
    (h : Before (gather {} early).keys first later) :
    Before ((gather {} early).gather late).keys first later := by
  rw [(topped_early hlate early).keys_eq]
  split
  · exact h
  · exact h.trans (List.sublist_append_left ..)

/-- The group of the unscoped profile is the last one when it begins with what is put at the
front. -/
theorem before_keys_unscoped (hnone : Pickup.namesFor early none = [])
    (hlatename : name ∈ late.map Pickup.name) (hnew : name ∉ early.map Pickup.name)
    (hkey : key ∈ early.map fun pickup => pickup.profile.name?) :
    Before ((gather {} early).gather late).keys key none := by
  have habsent : name ∈ (gather {} early).absent late := (mem_absent hearly).mpr ⟨hlatename, hnew⟩
  have hkeys : none ∉ (gather {} early).keys := by
    rw [keys_gather_append hearly, List.mem_eraseDups]
    intro hmem
    obtain ⟨pickup, hpickup, hprofile⟩ := List.mem_map.mp hmem
    have hname : pickup.name ∈ Pickup.namesFor early none := by
      refine List.mem_map_of_mem (List.mem_filter.mpr ⟨hpickup, ?_⟩)
      simpa using hprofile
    rw [hnone] at hname
    cases hname
  rw [(topped_early hlate early).keys_eq, if_neg ?_]
  · refine before_append ?_ (by simp)
    rw [keys_gather_append hearly, List.mem_eraseDups]
    exact hkey
  · rintro (hempty | hmem)
    · rw [hempty] at habsent
      cases habsent
    · exact hkeys hmem

end

end Layers

end LayeredConfig
