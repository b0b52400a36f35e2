import LayeredConfig.Proofs.Order
import LayeredConfig.Source
import Mathlib.Data.List.Induction

/-!
# Pairs with distinct keys

Setting pairs one after another leaves no key twice: every key stands where it was set first, with
the value that it was set to last. Pairs that have no key twice from the start are kept as they
are, and each is found under its key.

## Main definitions

* `Pairs.IsLast`: the last pair of a key.

## Main results

* `Pairs.ofList_spec`: what is left of any pairs.
* `Pairs.ofList_of_nodup`, `Pairs.get?_of_mem`: pairs with distinct keys.
* `Pairs.keys_ofList`, `Pairs.get?_ofList_iff`: the order of the keys, and their values.
-/

namespace LayeredConfig.Pairs

variable {α : Type} {key : String} {value : α} {pairs : List (String × α)}

theorem mem_of_mem_put {pair : String × α} (h : pair ∈ put key value pairs) :
    pair = (key, value) ∨ pair ∈ pairs := by
  induction pairs with
  | nil => exact .inl (List.mem_singleton.mp h)
  | cons first pairs ih =>
    rw [put] at h
    split at h
    · next hkey =>
      rw [hkey] at h
      exact (List.mem_cons.mp h).imp_right (List.mem_cons_of_mem _)
    · rcases List.mem_cons.mp h with rfl | h
      · exact .inr List.mem_cons_self
      · exact (ih h).imp_right (List.mem_cons_of_mem _)

theorem nodup_keys_put (h : (pairs.map Prod.fst).Nodup) :
    ((put key value pairs).map Prod.fst).Nodup := by
  induction pairs with
  | nil => simp [put]
  | cons first pairs ih =>
    rw [put]
    split
    · exact h
    · next hkey =>
      rw [List.map_cons, List.nodup_cons] at h ⊢
      refine ⟨fun hmem => ?_, ih h.2⟩
      obtain ⟨pair, hpair, heq⟩ := List.mem_map.mp hmem
      rcases mem_of_mem_put hpair with rfl | hpair
      · exact hkey heq.symm
      · exact h.1 (heq ▸ List.mem_map_of_mem hpair)

/-- Setting pairs one after another leaves no key twice and adds no other pair. -/
theorem ofList_spec (pairs : List (String × α)) :
    ((ofList pairs).map Prod.fst).Nodup ∧ ∀ pair ∈ ofList pairs, pair ∈ pairs := by
  refine List.foldlRecOn (motive := fun done : List (String × α) =>
    (done.map Prod.fst).Nodup ∧ ∀ pair ∈ done, pair ∈ pairs) pairs _ (by simp) ?_
  rintro done ⟨hnodup, hfrom⟩ added hadded
  refine ⟨nodup_keys_put hnodup, fun pair hpair => ?_⟩
  rcases mem_of_mem_put hpair with rfl | hpair
  · exact hadded
  · exact hfrom pair hpair

/-! ### Distinct keys from the start -/

theorem put_of_notMem (h : key ∉ pairs.map Prod.fst) :
    put key value pairs = pairs ++ [(key, value)] := by
  induction pairs with
  | nil => rfl
  | cons pair pairs ih =>
    rw [List.map_cons, List.mem_cons, not_or] at h
    rw [put, if_neg (Ne.symm h.1), ih h.2, List.cons_append]

/-- Pairs whose keys differ are kept as they are. -/
theorem ofList_of_nodup (h : (pairs.map Prod.fst).Nodup) : ofList pairs = pairs := by
  suffices hmore : ∀ done : List (String × α), ((done ++ pairs).map Prod.fst).Nodup →
      pairs.foldl (fun done pair => put pair.1 pair.2 done) done = done ++ pairs by
    exact hmore [] h
  clear h
  induction pairs with
  | nil => simp
  | cons pair pairs ih =>
    intro done h
    have hnew : pair.1 ∉ done.map Prod.fst := by
      intro hmem
      rw [List.map_append, List.nodup_append] at h
      exact h.2.2 _ hmem _ (by simp) rfl
    rw [List.foldl_cons, put_of_notMem hnew, ih _ (by simpa using h)]
    simp

theorem get?_of_mem (h : (pairs.map Prod.fst).Nodup) (hmem : (key, value) ∈ pairs) :
    get? key pairs = some value := by
  induction pairs with
  | nil => cases hmem
  | cons pair pairs ih =>
    rw [List.map_cons, List.nodup_cons] at h
    rcases List.mem_cons.mp hmem with rfl | hmem
    · rw [get?, if_pos rfl]
    · have hne : pair.1 ≠ key := fun heq => h.1 (heq ▸ List.mem_map_of_mem hmem)
      rw [get?, if_neg hne, ih h.2 hmem]

theorem mem_of_get? (h : get? key pairs = some value) : (key, value) ∈ pairs := by
  induction pairs with
  | nil => cases h
  | cons pair pairs ih =>
    rw [get?] at h
    split at h
    · next hkey =>
      cases h
      rw [← hkey]
      exact List.mem_cons_self
    · exact List.mem_cons_of_mem _ (ih h)

theorem get?_eq_none_iff : get? key pairs = none ↔ key ∉ pairs.map Prod.fst := by
  induction pairs with
  | nil => simp [get?]
  | cons pair pairs ih =>
    rw [get?, List.map_cons, List.mem_cons, not_or, ← ih]
    by_cases hkey : pair.1 = key
    · simp [hkey]
    · simp [hkey, Ne.symm hkey]

/-- Without the pairs of some keys, what is left is found as before. -/
theorem get?_filter (keys : List String) :
    get? key (pairs.filter fun pair => !keys.contains pair.1) =
      if key ∈ keys then none else get? key pairs := by
  induction pairs with
  | nil => simp [get?]
  | cons pair pairs ih =>
    rw [List.filter_cons, get?]
    by_cases hmem : pair.1 ∈ keys
    · rw [if_neg (by simpa using hmem), ih]
      by_cases hkey : pair.1 = key
      · rw [if_pos (hkey ▸ hmem), if_pos (hkey ▸ hmem)]
      · rw [if_neg hkey]
    · rw [if_pos (by simpa using hmem), get?, ih]
      by_cases hkey : pair.1 = key
      · rw [if_pos hkey, if_pos hkey, if_neg (hkey ▸ hmem)]
      · rw [if_neg hkey, if_neg hkey]

/-- A key that is there is overwritten in its place. -/
theorem put_of_getElem? (h : (pairs.map Prod.fst).Nodup) {place : Nat}
    (hplace : (pairs.map Prod.fst)[place]? = some key) :
    put key value pairs = pairs.set place (key, value) := by
  induction pairs generalizing place with
  | nil => cases hplace
  | cons pair pairs ih =>
    rw [List.map_cons, List.nodup_cons] at h
    cases place with
    | zero =>
      obtain rfl : pair.1 = key := by simpa using hplace
      rw [put, if_pos rfl, List.set_cons_zero]
    | succ place =>
      rw [List.map_cons, List.getElem?_cons_succ] at hplace
      have hne : pair.1 ≠ key := fun heq => h.1 (heq ▸ List.mem_of_getElem? hplace)
      rw [put, if_neg hne, ih h.2 hplace, List.set_cons_succ]

/-! ### The order and the values of what is set -/

theorem keys_put : (put key value pairs).map Prod.fst =
    if key ∈ pairs.map Prod.fst then pairs.map Prod.fst else pairs.map Prod.fst ++ [key] := by
  induction pairs with
  | nil => simp [put]
  | cons pair pairs ih =>
    by_cases hkey : pair.1 = key
    · simp [put, hkey]
    · rw [put, if_neg hkey, List.map_cons, ih, List.map_cons]
      by_cases hmem : key ∈ pairs.map Prod.fst
      · rw [if_pos hmem, if_pos (List.mem_cons_of_mem _ hmem)]
      · rw [if_neg hmem, if_neg (by simpa [Ne.symm hkey] using hmem), List.cons_append]

theorem ofList_concat (pairs : List (String × α)) (pair : String × α) :
    ofList (pairs ++ [pair]) = put pair.1 pair.2 (ofList pairs) := by
  rw [ofList, List.foldl_append]
  rfl

/-- Every key stands where it was set first. -/
theorem keys_ofList (pairs : List (String × α)) :
    (ofList pairs).map Prod.fst = (pairs.map Prod.fst).eraseDups := by
  induction pairs using List.reverseRecOn with
  | nil => simp [ofList]
  | append_singleton pairs pair ih =>
    rw [ofList_concat, keys_put, ih, List.map_append, List.map_singleton, eraseDups_concat]
    simp only [List.mem_eraseDups]

/-- No later pair has the key. -/
def IsLast (pairs : List (String × α)) (key : String) (value : α) : Prop :=
  ∃ before after, pairs = before ++ (key, value) :: after ∧ key ∉ after.map Prod.fst

theorem isLast_concat_iff {pair : String × α} : IsLast (pairs ++ [pair]) key value ↔
    if pair.1 = key then pair.2 = value else IsLast pairs key value := by
  constructor
  · rintro ⟨before, after, hsplit, hlater⟩
    rcases List.eq_nil_or_concat after with rfl | ⟨after, last, rfl⟩
    · obtain ⟨-, hpair⟩ := List.append_inj' hsplit rfl
      cases hpair
      exact (if_pos rfl).mpr rfl
    · rw [List.concat_eq_append] at hsplit hlater
      rw [← List.cons_append, ← List.append_assoc] at hsplit
      obtain ⟨rfl, hpair⟩ := List.append_inj' hsplit rfl
      cases hpair
      rw [List.map_append, List.mem_append, not_or] at hlater
      rw [if_neg fun heq => hlater.2 (by simp [heq])]
      exact ⟨before, after, rfl, hlater.1⟩
  · intro h
    split at h
    · next hkey =>
      subst hkey h
      exact ⟨pairs, [], rfl, List.not_mem_nil⟩
    · next hkey =>
      obtain ⟨before, after, rfl, hlater⟩ := h
      exact ⟨before, after ++ [pair], by simp, by simpa [Ne.symm hkey] using hlater⟩

/-- Every key has the value that it was set to last. -/
theorem get?_ofList_iff : get? key (ofList pairs) = some value ↔ IsLast pairs key value := by
  induction pairs using List.reverseRecOn with
  | nil => simp [ofList, get?, IsLast]
  | append_singleton pairs pair ih =>
    rw [ofList_concat, get?_put, isLast_concat_iff]
    split
    · exact Option.some_inj
    · exact ih

end LayeredConfig.Pairs
