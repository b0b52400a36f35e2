import LayeredConfig.Load
import LayeredConfig.Proofs.Chain

/-!
# The groups of the layers

The layers of a load result from what it picks up, one pickup after the other. A group that is
only appended to holds every name where it was picked up last. Names that are put at the front
when they are absent stand there in the opposite order of their first pickups.

## Main definitions

* `Layers.keys`, `Layers.names`: the profiles that have a group, and the names in a group.
* `Layers.gather`: layers after some pickups.

## Main results

* `Layers.names_gather_append`, `Layers.names_gather_absent`: the names in a group.
* `Layers.keys_gather_append`, `Layers.keys_gather_absent`: the order of the groups.
* `Layers.collected_names`: the names of the collected sources.
-/

namespace LayeredConfig

/-! ### Erasing duplicates -/

section EraseDups

variable {α β : Type} [BEq β] [LawfulBEq β]

/-- Of things with names, a condition on the names can be asked before or after all but the first
of each name are erased. -/
private theorem eraseDupsBy_filter (f : α → β) (p : β → Bool) (l : List α) :
    (l.filter (p ∘ f)).eraseDupsBy (fun a b => f a == f b) =
      (l.eraseDupsBy fun a b => f a == f b).filter (p ∘ f) := by
  match l with
  | [] => rfl
  | c :: l =>
    have ih := eraseDupsBy_filter f p (l.filter fun b => (f b == f c) = false)
    rw [List.eraseDupsBy_cons]
    by_cases hc : (p ∘ f) c = true
    · rw [List.filter_cons_of_pos hc, List.filter_cons_of_pos hc, List.eraseDupsBy_cons, ← ih,
        List.filter_filter, List.filter_filter]
      simp only [Bool.and_comm]
    · rw [List.filter_cons_of_neg hc, List.filter_cons_of_neg hc, ← ih, List.filter_filter]
      congr 1
      refine List.filter_congr fun b _ => ?_
      by_cases hb : f b = f c
      · simpa [hb] using hc
      · simp [hb]
termination_by l.length
decreasing_by exact Nat.lt_succ_of_le (List.length_filter_le ..)

/-- Where the last of each name is kept, one more goes to the end, without the others of its
name. -/
theorem eraseDupsBy_reverse_concat (f : α → β) (l : List α) (c : α) :
    ((l ++ [c]).reverse.eraseDupsBy fun a b => f a == f b).reverse =
      (l.reverse.eraseDupsBy fun a b => f a == f b).reverse.filter (fun a => f a != f c) ++
        [c] := by
  have hother : (fun b => decide ((f b == f c) = false)) = (· != f c) ∘ f := by
    funext b
    cases hb : f b == f c <;> simp [bne, hb]
  rw [List.reverse_concat, List.eraseDupsBy_cons, List.reverse_cons, hother, eraseDupsBy_filter,
    List.filter_reverse]
  rfl

private theorem eraseDups_reverse_concat (l : List β) (c : β) :
    (l ++ [c]).reverse.eraseDups.reverse = l.reverse.eraseDups.reverse.filter (· != c) ++ [c] :=
  eraseDupsBy_reverse_concat id l c

omit [LawfulBEq β] in
theorem map_eraseDupsBy (f : α → β) (l : List α) :
    (l.eraseDupsBy fun a b => f a == f b).map f = (l.map f).eraseDups := by
  match l with
  | [] => rfl
  | c :: l =>
    have ih := map_eraseDupsBy f (l.filter fun b => (f b == f c) = false)
    rw [List.eraseDupsBy_cons, List.map_cons, List.map_cons, List.eraseDups_cons, ih,
      List.filter_map]
    congr 4
    funext b
    cases hb : f b == f c <;> simp [hb]
termination_by l.length
decreasing_by exact Nat.lt_succ_of_le (List.length_filter_le ..)

end EraseDups

namespace Layers

/-! ### Groups -/

/-- The names of the profiles that have a group, in the order in which the groups began. -/
def keys (layers : Layers) : List (Option String) :=
  layers.groups.map fun group => group.1.name?

/-- The group of a profile, empty when it has not begun. -/
def group (layers : Layers) (key : Option String) : Chain :=
  ((layers.groups.find? fun group => group.1.name? = key).map Prod.snd).getD {}

/-- The names of the sources in the group of a profile. -/
def names (layers : Layers) (key : Option String) : List String :=
  (layers.group key).names

variable {layers : Layers} {profile : Profile} {source : Source} {name : String}
  {key : Option String}

private theorem update_cons_same {p : Profile} (h : p.name? = profile.name?)
    (change : Chain → Chain) (chain : Chain) (groups : List (Profile × Chain)) :
    update profile change ((p, chain) :: groups) = (p, change chain) :: groups := by
  rw [update, if_pos (Profile.same_iff.mpr h)]

private theorem update_cons_other {p : Profile} (h : p.name? ≠ profile.name?)
    (change : Chain → Chain) (chain : Chain) (groups : List (Profile × Chain)) :
    update profile change ((p, chain) :: groups) =
      (p, chain) :: update profile change groups := by
  rw [update, if_neg (Profile.same_iff.not.mpr h)]

private theorem keys_cons (p : Profile) (chain : Chain) (groups : List (Profile × Chain)) :
    keys ⟨(p, chain) :: groups⟩ = p.name? :: keys ⟨groups⟩ := rfl

private theorem group_cons_same {p : Profile} (h : p.name? = key) (chain : Chain)
    (groups : List (Profile × Chain)) : group ⟨(p, chain) :: groups⟩ key = chain := by
  simp [group, h]

private theorem group_cons_other {p : Profile} (h : p.name? ≠ key) (chain : Chain)
    (groups : List (Profile × Chain)) :
    group ⟨(p, chain) :: groups⟩ key = group ⟨groups⟩ key := by
  simp [group, h]

/-- A group that is changed keeps its place; a new one comes last. -/
theorem keys_update (profile : Profile) (change : Chain → Chain)
    (groups : List (Profile × Chain)) :
    keys ⟨update profile change groups⟩ =
      if profile.name? ∈ keys ⟨groups⟩ then keys ⟨groups⟩
      else keys ⟨groups⟩ ++ [profile.name?] := by
  induction groups with
  | nil => rfl
  | cons entry groups ih =>
    obtain ⟨p, chain⟩ := entry
    by_cases hp : p.name? = profile.name?
    · rw [update_cons_same hp, keys_cons, keys_cons, if_pos (by simp [hp])]
    · rw [update_cons_other hp, keys_cons, keys_cons, ih]
      by_cases hmem : profile.name? ∈ keys ⟨groups⟩
      · rw [if_pos hmem, if_pos (List.mem_cons_of_mem _ hmem)]
      · rw [if_neg hmem, if_neg (by simp [hmem, Ne.symm hp])]
        rfl

/-- No other group is changed. -/
theorem group_update (profile : Profile) (change : Chain → Chain)
    (groups : List (Profile × Chain)) (key : Option String) :
    group ⟨update profile change groups⟩ key =
      if profile.name? = key then change (group ⟨groups⟩ key) else group ⟨groups⟩ key := by
  induction groups with
  | nil => by_cases hkey : profile.name? = key <;> simp [update, group, hkey]
  | cons entry groups ih =>
    obtain ⟨p, chain⟩ := entry
    by_cases hp : p.name? = profile.name?
    · rw [update_cons_same hp]
      by_cases hkey : profile.name? = key
      · rw [if_pos hkey, group_cons_same (hp.trans hkey), group_cons_same (hp.trans hkey)]
      · have hother : p.name? ≠ key := fun h => hkey (hp.symm.trans h)
        rw [if_neg hkey, group_cons_other hother, group_cons_other hother]
    · rw [update_cons_other hp]
      by_cases hkey : p.name? = key
      · have hother : ¬ profile.name? = key := fun h => hp (hkey.trans h.symm)
        rw [if_neg hother, group_cons_same hkey, group_cons_same hkey]
      · rw [group_cons_other hkey, group_cons_other hkey, ih]

theorem nodup_keys_update (h : layers.keys.Nodup) (change : Chain → Chain) :
    (keys ⟨update profile change layers.groups⟩).Nodup := by
  rw [keys_update]
  split
  · exact h
  · next hnew =>
    refine List.nodup_append.mpr ⟨h, by simp, ?_⟩
    rintro key hkey other hother rfl
    exact hnew (List.mem_singleton.mp hother ▸ hkey)

theorem group_eq_of_mem (h : layers.keys.Nodup) {chain : Chain}
    (hmem : (profile, chain) ∈ layers.groups) : layers.group profile.name? = chain := by
  obtain ⟨groups⟩ := layers
  induction groups with
  | nil => cases hmem
  | cons entry groups ih =>
    obtain ⟨p, first⟩ := entry
    rw [keys_cons, List.nodup_cons] at h
    rcases List.mem_cons.mp hmem with heq | hmem
    · cases heq
      exact group_cons_same rfl _ _
    · have hother : p.name? ≠ profile.name? := by
        intro hp
        exact h.1 (hp ▸ List.mem_map_of_mem hmem)
      rw [group_cons_other hother]
      exact ih h.2 hmem

theorem exists_mem_of_mem_names (h : name ∈ layers.names key) :
    ∃ profile chain, (profile, chain) ∈ layers.groups ∧ profile.name? = key ∧
      name ∈ chain.names := by
  unfold names group at h
  cases hfind : layers.groups.find? fun group => group.1.name? = key with
  | none => simp [hfind, Chain.names] at h
  | some entry =>
    have hkey := List.find?_some hfind
    rw [hfind] at h
    exact ⟨entry.1, entry.2, List.mem_of_find?_eq_some hfind, by simpa using hkey, h⟩

theorem mem_keys_of_mem_names (h : name ∈ layers.names key) : key ∈ layers.keys := by
  obtain ⟨profile, chain, hmem, rfl, -⟩ := exists_mem_of_mem_names h
  exact List.mem_map_of_mem hmem

/-- The layers contain the names of all groups. -/
theorem contains_iff (h : layers.keys.Nodup) :
    layers.contains name = true ↔ ∃ key, name ∈ layers.names key := by
  simp only [contains, List.any_eq_true, Chain.contains_iff]
  constructor
  · rintro ⟨⟨profile, chain⟩, hmem, hname⟩
    refine ⟨profile.name?, ?_⟩
    rwa [names, group_eq_of_mem h hmem]
  · rintro ⟨key, hname⟩
    obtain ⟨profile, chain, hmem, -, hname⟩ := exists_mem_of_mem_names hname
    exact ⟨(profile, chain), hmem, hname⟩

theorem flatMap_groups (h : layers.keys.Nodup) :
    (layers.groups.reverse.flatMap fun (_, chain) => chain.sources) =
      layers.keys.reverse.flatMap fun key => (layers.group key).sources := by
  rw [keys, ← List.map_reverse, List.flatMap_map, List.flatMap_def, List.flatMap_def]
  refine congrArg List.flatten (List.map_congr_left fun entry hentry => ?_)
  rw [group_eq_of_mem h (List.mem_reverse.mp hentry)]

/-- The collected sources stand group by group, those of the last group first. -/
theorem collected_names (h : layers.keys.Nodup) :
    layers.collected.map Source.name = (layers.keys.reverse.flatMap layers.names).eraseDups := by
  rw [collected, map_eraseDupsBy, flatMap_groups h, List.map_flatMap]
  rfl

theorem nodup_keys_accept (h : layers.keys.Nodup) (profile : Profile) (source : Source)
    (placement : Placement) : (layers.accept profile source placement).keys.Nodup := by
  unfold accept
  split
  · exact nodup_keys_update h _
  · split
    · exact h
    · exact nodup_keys_update h _

end Layers

/-! ### Pickups -/

namespace Pickup

/-- The name of the source that was picked up. -/
def name (pickup : Pickup) : String :=
  pickup.document.source.name

/-- The names that were picked up for a profile, in order. -/
def namesFor (pickups : List Pickup) (key : Option String) : List String :=
  (pickups.filter fun pickup => pickup.profile.name? = key).map name

end Pickup

namespace Layers

/-- The layers after some more pickups. -/
def gather (layers : Layers) (pickups : List Pickup) : Layers :=
  pickups.foldl (fun layers pickup =>
    layers.accept pickup.profile pickup.document.source pickup.placement) layers

theorem ofPickups_eq_gather (pickups : Array Pickup) :
    ofPickups pickups = gather {} pickups.toList := by
  rw [ofPickups, gather, Array.foldl_toList]

variable {layers : Layers} {key : Option String} {pickups : List Pickup}

private theorem gather_concat (layers : Layers) (pickups : List Pickup) (pickup : Pickup) :
    layers.gather (pickups ++ [pickup]) =
      (layers.gather pickups).accept pickup.profile pickup.document.source pickup.placement := by
  rw [gather, List.foldl_append]
  rfl

private theorem namesFor_concat (pickups : List Pickup) (pickup : Pickup) (key : Option String) :
    Pickup.namesFor (pickups ++ [pickup]) key = Pickup.namesFor pickups key ++
      if pickup.profile.name? = key then [pickup.name] else [] := by
  rw [Pickup.namesFor, List.filter_append, List.map_append, Pickup.namesFor]
  split
  · next hkey => simp [hkey]
  · next hkey => simp [hkey]

theorem nodup_keys_gather (h : layers.keys.Nodup) (pickups : List Pickup) :
    (layers.gather pickups).keys.Nodup := by
  induction pickups using List.reverseRecOn with
  | nil => exact h
  | append_singleton pickups pickup ih =>
    rw [gather_concat]
    exact nodup_keys_accept ih _ _ _

/-- Groups begin in the order in which their first documents are picked up. -/
theorem keys_gather_append (h : ∀ pickup ∈ pickups, pickup.placement = .append) :
    (gather {} pickups).keys = (pickups.map fun pickup => pickup.profile.name?).eraseDups := by
  induction pickups using List.reverseRecOn with
  | nil => rfl
  | append_singleton pickups pickup ih =>
    have ih := ih fun p hp => h p (List.mem_append_left _ hp)
    rw [gather_concat, h pickup (by simp), accept, keys_update, ih, List.map_append,
      List.map_singleton, eraseDups_concat]
    simp only [List.mem_eraseDups]

/-- A group that is appended to holds its names in the order of their last pickups. -/
theorem names_gather_append (h : ∀ pickup ∈ pickups, pickup.placement = .append)
    (key : Option String) :
    (gather {} pickups).names key = (Pickup.namesFor pickups key).reverse.eraseDups.reverse := by
  induction pickups using List.reverseRecOn with
  | nil => rfl
  | append_singleton pickups pickup ih =>
    have ih := ih fun p hp => h p (List.mem_append_left _ hp)
    rw [gather_concat, h pickup (by simp), accept, namesFor_concat, names, group_update]
    split
    · next hkey => rw [Chain.names_addLast, eraseDups_reverse_concat, ← ih]; rfl
    · next hkey => rw [List.append_nil, ← ih]; rfl

/-- The names of pickups that layers do not contain yet, in order. -/
def absent (layers : Layers) (pickups : List Pickup) : List String :=
  ((pickups.map Pickup.name).filter fun name => !layers.contains name).eraseDups

private theorem absent_concat (layers : Layers) (pickups : List Pickup) (pickup : Pickup) :
    layers.absent (pickups ++ [pickup]) =
      if layers.contains pickup.name = true ∨ pickup.name ∈ layers.absent pickups then
        layers.absent pickups
      else layers.absent pickups ++ [pickup.name] := by
  rw [absent, List.map_append, List.filter_append, List.map_singleton]
  cases hcontains : layers.contains pickup.name with
  | true =>
    rw [List.filter_cons_of_neg (by simp [hcontains]), if_pos (.inl rfl)]
    simp [absent]
  | false =>
    rw [List.filter_cons_of_pos (by simp [hcontains]), List.filter_nil, eraseDups_concat]
    simp [absent]

/-- The layers after pickups for the unscoped profile that join when they are absent. -/
structure Topped (layers : Layers) (pickups : List Pickup) (after : Layers) : Prop where
  keys_eq : after.keys =
    if layers.absent pickups = [] ∨ none ∈ layers.keys then layers.keys
    else layers.keys ++ [none]
  names_none : after.names none = (layers.absent pickups).reverse ++ layers.names none
  names_some (name : String) : after.names (some name) = layers.names (some name)

namespace Topped

variable {after : Layers} {name : String}

theorem contains_iff (h : Topped layers pickups after) (hnodup : layers.keys.Nodup)
    (hafter : after.keys.Nodup) : after.contains name = true ↔
      layers.contains name = true ∨ name ∈ layers.absent pickups := by
  rw [Layers.contains_iff hafter, Layers.contains_iff hnodup]
  constructor
  · rintro ⟨_ | key, hname⟩
    · rw [h.names_none, List.mem_append, List.mem_reverse] at hname
      exact hname.symm.imp_left fun hname => ⟨none, hname⟩
    · exact .inl ⟨some key, h.names_some key ▸ hname⟩
  · rintro (⟨_ | key, hname⟩ | hname)
    · exact ⟨none, by rw [h.names_none]; exact List.mem_append_right _ hname⟩
    · exact ⟨some key, (h.names_some key).symm ▸ hname⟩
    · exact ⟨none, by rw [h.names_none]; simp [hname]⟩

end Topped

/-- Names that are put at the front stand there in the opposite order of their first pickups,
and begin the group of the unscoped profile when it has none. -/
theorem topped_gather (hnodup : layers.keys.Nodup)
    (h : ∀ pickup ∈ pickups, pickup.placement = .prependIfAbsent ∧ pickup.profile = .unscoped) :
    Topped layers pickups (layers.gather pickups) := by
  induction pickups using List.reverseRecOn with
  | nil => exact ⟨by simp [absent, gather], by simp [absent, gather], fun name => rfl⟩
  | append_singleton pickups pickup ih =>
    have ih := ih fun p hp => h p (List.mem_append_left _ hp)
    obtain ⟨hplacement, hprofile⟩ := h pickup (by simp)
    have hafter : (layers.gather pickups).keys.Nodup := nodup_keys_gather hnodup pickups
    have hcontains : (layers.gather pickups).contains pickup.name = true ↔
        layers.contains pickup.name = true ∨ pickup.name ∈ layers.absent pickups :=
      ih.contains_iff hnodup hafter
    rw [gather_concat, hplacement, hprofile, accept]
    by_cases hname : layers.contains pickup.name = true ∨ pickup.name ∈ layers.absent pickups
    · have hthere : (layers.gather pickups).contains pickup.document.source.name = true :=
        hcontains.mpr hname
      rw [if_pos hthere]
      refine ⟨?_, ?_, ih.names_some⟩
      · rw [absent_concat, if_pos hname, ih.keys_eq]
      · rw [absent_concat, if_pos hname, ih.names_none]
    · have hnew : ¬ (layers.gather pickups).contains pickup.document.source.name = true :=
        hcontains.not.mpr hname
      have hnone : pickup.document.source.name ∉ (layers.gather pickups).names none := fun hmem =>
        hnew ((Layers.contains_iff hafter).mpr ⟨none, hmem⟩)
      rw [if_neg hnew]
      refine ⟨?_, ?_, fun name => ?_⟩
      · rw [keys_update, absent_concat, if_neg hname]
        show (if none ∈ (layers.gather pickups).keys then _ else _) = _
        rw [ih.keys_eq]
        by_cases hold : none ∈ layers.keys
        · simp [hold]
        · by_cases habsent : layers.absent pickups = [] <;> simp [hold, habsent, Profile.name?]
      · rw [names, group_update, if_pos (show Profile.unscoped.name? = none from rfl),
          Chain.names_addFirst, absent_concat, if_neg hname, List.reverse_concat,
          List.cons_append, ← ih.names_none]
        refine congrArg _ (List.filter_eq_self.mpr fun name hmem => ?_)
        simp only [bne_iff_ne]
        rintro rfl
        exact hnone hmem
      · rw [← ih.names_some, names, group_update, if_neg (by simp [Profile.name?]), names]

end Layers

end LayeredConfig
