import LayeredConfig.Proofs.Layers.Groups
import LayeredConfig.Proofs.Order
import Mathlib.Data.List.Nodup

/-!
# Pickups that come profile by profile

Where the pickups come in blocks, each block for another profile, and no name is picked up twice,
the groups are the blocks that are not empty. The collected sources then stand block by block, those
of the last block first and each block in its order.

## Main results

* `Layers.collected_blocks`: the names of the collected sources.
-/

namespace LayeredConfig

private theorem eraseDups_of_eq {α : Type} [BEq α] [LawfulBEq α] {l : List α} {a : α}
    (h : ∀ b ∈ l, b = a) (hsome : l ≠ []) : l.eraseDups = [a] := by
  cases l with
  | nil => exact absurd rfl hsome
  | cons b l =>
    obtain rfl := h b List.mem_cons_self
    have hnone : (l.filter fun c => !c == b) = [] := by
      refine List.filter_eq_nil_iff.mpr fun c hc => ?_
      simp [h c (List.mem_cons_of_mem _ hc)]
    rw [List.eraseDups_cons, hnone]
    rfl

private theorem flatMap_filter_isEmpty {β : Type} (block : β → List Pickup) (l : List β) :
    ((l.filter fun b => !(block b).isEmpty).flatMap fun b => (block b).map Pickup.name) =
      l.flatMap fun b => (block b).map Pickup.name := by
  induction l with
  | nil => rfl
  | cons b l ih =>
    by_cases hempty : block b = []
    · rw [List.filter_cons_of_neg (by simp [hempty]), ih, List.flatMap_cons, hempty]
      rfl
    · rw [List.filter_cons_of_pos (by simpa using hempty), List.flatMap_cons, ih, List.flatMap_cons]

section Blocks

variable {β : Type} {l : List β} {key : β → Option String} {block : β → List Pickup}
  (hblock : ∀ b ∈ l, ∀ pickup ∈ block b, pickup.profile.name? = key b)

include hblock

/-- The pickups for a profile are those of the blocks that are for it. -/
private theorem namesFor_blocks (profile : Option String) :
    Pickup.namesFor (l.flatMap block) profile =
      (l.filter fun b => key b = profile).flatMap fun b => (block b).map Pickup.name := by
  induction l with
  | nil => rfl
  | cons b l ih =>
    have ih := ih fun c hc => hblock c (List.mem_cons_of_mem _ hc)
    rw [List.flatMap_cons, Pickup.namesFor, List.filter_append, List.map_append]
    change _ ++ Pickup.namesFor (l.flatMap block) profile = _
    have hown := hblock b List.mem_cons_self
    by_cases hkey : key b = profile
    · have hall : (block b).filter (fun pickup => pickup.profile.name? = profile) = block b :=
        List.filter_eq_self.mpr fun pickup hpickup => by simp [hown pickup hpickup, hkey]
      rw [hall, ih, List.filter_cons_of_pos (by simp [hkey]), List.flatMap_cons]
    · have hnone : (block b).filter (fun pickup => pickup.profile.name? = profile) = [] :=
        List.filter_eq_nil_iff.mpr fun pickup hpickup => by simp [hown pickup hpickup, hkey]
      rw [hnone, ih, List.filter_cons_of_neg (by simp [hkey]), List.map_nil, List.nil_append]

variable (hkeys : (l.map key).Nodup)

include hkeys

/-- The profiles that something was picked up for are those of the blocks that are not empty. -/
private theorem keys_blocks :
    ((l.flatMap block).map fun pickup => pickup.profile.name?).eraseDups =
      (l.filter fun b => !(block b).isEmpty).map key := by
  induction l with
  | nil => rfl
  | cons b l ih =>
    rw [List.map_cons, List.nodup_cons] at hkeys
    have ih := ih (fun c hc => hblock c (List.mem_cons_of_mem _ hc)) hkeys.2
    have hown : ∀ k ∈ (block b).map fun pickup => pickup.profile.name?, k = key b := by
      intro k hk
      obtain ⟨pickup, hpickup, rfl⟩ := List.mem_map.mp hk
      exact hblock b List.mem_cons_self pickup hpickup
    have hother : ((l.flatMap block).map fun pickup => pickup.profile.name?).removeAll
        ((block b).map fun pickup => pickup.profile.name?) =
          (l.flatMap block).map fun pickup => pickup.profile.name? := by
      refine List.filter_eq_self.mpr fun k hk => ?_
      obtain ⟨pickup, hpickup, rfl⟩ := List.mem_map.mp hk
      obtain ⟨c, hc, hpickup⟩ := List.mem_flatMap.mp hpickup
      rw [hblock c (List.mem_cons_of_mem _ hc) pickup hpickup, Bool.not_eq_true',
        ← Bool.not_eq_true, List.elem_iff]
      intro hmem
      exact hkeys.1 (hown _ hmem ▸ List.mem_map_of_mem hc)
    rw [List.flatMap_cons, List.map_append, List.eraseDups_append, hother, ih]
    by_cases hempty : block b = []
    · rw [List.filter_cons_of_neg (by simp [hempty]), hempty]
      rfl
    · rw [List.filter_cons_of_pos (by simpa using hempty), List.map_cons,
        eraseDups_of_eq hown (by simpa using hempty), List.singleton_append]

/-- The collected sources stand block by block, those of the last block first. -/
theorem Layers.collected_blocks (happend : ∀ pickup ∈ l.flatMap block, pickup.placement = .append)
    (hnames : ((l.flatMap block).map Pickup.name).Nodup) :
    (gather {} (l.flatMap block)).collected.map Source.name =
      l.reverse.flatMap fun b => (block b).map Pickup.name := by
  rw [List.map_flatMap] at hnames
  have hgroup : ∀ b ∈ l, (gather {} (l.flatMap block)).names (key b) =
      (block b).map Pickup.name := by
    intro b hb
    have hself : l.filter (fun c => key c = key b) = [b] :=
      filter_eq_singleton hkeys (fun c hc => of_decide_eq_true hc) hb (decide_eq_true rfl)
    have hown : ((block b).map Pickup.name).Nodup := (List.nodup_flatMap.mp hnames).1 b hb
    rw [names_gather_append happend, namesFor_blocks hblock, hself, List.flatMap_singleton,
      eraseDups_of_nodup (List.nodup_reverse.mpr hown), List.reverse_reverse]
  have hall : ((l.filter fun b => !(block b).isEmpty).map key).reverse.flatMap
      (gather {} (l.flatMap block)).names =
        l.reverse.flatMap fun b => (block b).map Pickup.name := by
    rw [← List.map_reverse, List.flatMap_map, ← List.filter_reverse]
    refine Eq.trans (List.flatMap_congr fun b hb => ?_) (flatMap_filter_isEmpty block l.reverse)
    exact hgroup b (List.mem_reverse.mp (List.mem_filter.mp hb).1)
  have hnodup : (l.reverse.flatMap fun b => (block b).map Pickup.name).Nodup :=
    ((List.reverse_perm l).flatMap_right _).nodup_iff.mpr hnames
  rw [collected_names (nodup_keys_gather (by simp [keys]) _), keys_gather_append happend,
    keys_blocks hblock hkeys, hall, eraseDups_of_nodup hnodup]

end Blocks

end LayeredConfig
