import LayeredConfig.Layers
import LayeredConfig.Proofs.Order
import Mathlib.Data.List.Induction
import Mathlib.Data.List.Nodup
import Mathlib.Data.List.TakeWhile

/-!
# Chains whose names are distinct

No two sources of a chain have the same name: sources are added in the place of any other of
their name. So a source splits the chain in which it stands, replacing one changes nothing else,
and what is done to every source of a name is done at the first position of the name. A block of
sources takes the place of all sources of its names and stands directly above the default
properties, or at the end where there are none.

## Main definitions

* `Chain.Distinct`: no two sources have the same name.
* `Chain.position?`: the first position of a name.
* `Chain.withBlock`: a chain with a block of sources above the default properties.

## Main results

* `Chain.distinct_ofSources`: a chain that is made by adding sources has distinct names.
* `Chain.Distinct.addFirst` and the like: every operation keeps the names distinct.
* `Chain.Distinct.exists_addBefore?`, `Chain.Distinct.exists_addAfter?`: where a source is put.
* `Chain.Distinct.erase_eq`, `Chain.Distinct.replace_eq`, `Chain.Distinct.addBefore?_eq`,
  `Chain.Distinct.addAfter?_eq`: every operation acts at the first position of a name.
* `Chain.Distinct.replace_eq_self`, `Chain.replace_withBlock`: what a replacement leaves as it is.
* `Chain.get?_withBlock`, `Chain.before_withBlock`: what stands in a chain with a block.
-/

namespace LayeredConfig

namespace Chain

/-- No two sources of a chain have the same name. -/
def Distinct (chain : Chain) : Prop :=
  chain.names.Nodup

instance (chain : Chain) : Decidable chain.Distinct :=
  inferInstanceAs (Decidable chain.names.Nodup)

variable {chain : Chain} {source other : Source} {name : String} {block : List Source}

/-! ### Names -/

@[simp] theorem names_addLast :
    (chain.addLast source).names = chain.names.filter (· != source.name) ++ [source.name] := by
  simp [addLast, erase, names, List.filter_map, Function.comp_def]

@[simp] theorem names_addFirst :
    (chain.addFirst source).names = source.name :: chain.names.filter (· != source.name) := by
  simp [addFirst, erase, names, List.filter_map, Function.comp_def]

theorem contains_iff : chain.contains name = true ↔ name ∈ chain.names := by
  simp [contains, names]

theorem name_of_get? (h : chain.get? name = some source) : source.name = name := by
  simpa using List.find?_some h

theorem mem_of_get? (h : chain.get? name = some source) : source ∈ chain.sources :=
  List.mem_of_find?_eq_some h

theorem get?_eq_none_iff : chain.get? name = none ↔ name ∉ chain.names := by
  simp [get?, names]

/-- In a chain with distinct names, a source is found under its name. -/
theorem Distinct.get?_of_mem (h : chain.Distinct) (hmem : source ∈ chain.sources) :
    chain.get? source.name = some source := by
  cases hget : chain.get? source.name with
  | none => exact absurd (List.mem_map_of_mem hmem) (get?_eq_none_iff.mp hget)
  | some found =>
    rw [List.inj_on_of_nodup_map h (mem_of_get? hget) hmem (name_of_get? hget)]

theorem Distinct.erase (h : chain.Distinct) (name : String) : (chain.erase name).Distinct :=
  h.sublist (List.filter_sublist.map Source.name)

theorem notMem_names_erase : name ∉ (chain.erase name).names := by
  simp [erase, names]

/-- A source of a new name can be put in anywhere. -/
theorem Distinct.insert (above below : List Source) (h : Distinct ⟨above ++ below⟩)
    (hnew : source.name ∉ names ⟨above ++ below⟩) : Distinct ⟨above ++ source :: below⟩ := by
  rw [Distinct, names, (List.perm_middle.map Source.name).nodup_iff, List.map_cons,
    List.nodup_cons]
  exact ⟨hnew, h⟩

/-- A source that is added at the end stands there alone under its name. -/
theorem Distinct.addLast (h : chain.Distinct) (source : Source) :
    (chain.addLast source).Distinct := by
  refine Distinct.insert (chain.erase source.name).sources [] ?_ ?_
  · rw [List.append_nil]
    exact h.erase source.name
  · rw [List.append_nil]
    exact notMem_names_erase

/-- A chain that is made by adding sources has distinct names. -/
theorem distinct_ofSources (sources : List Source) : (ofSources sources).Distinct := by
  unfold ofSources
  induction sources using List.reverseRecOn with
  | nil => simp [Distinct, names]
  | append_singleton sources source ih =>
    rw [List.foldl_append]
    exact ih.addLast source

theorem Distinct.addFirst (h : chain.Distinct) (source : Source) :
    (chain.addFirst source).Distinct :=
  Distinct.insert [] _ (h.erase source.name) notMem_names_erase

/-- In a chain with distinct names, a source is the only one of its name. -/
theorem Distinct.name_ne_of_split (h : chain.Distinct) {above below : List Source}
    (hsplit : chain.sources = above ++ source :: below) :
    (∀ other ∈ above, other.name ≠ source.name) ∧ ∀ other ∈ below, other.name ≠ source.name := by
  rw [Distinct, names, hsplit, List.map_append, List.map_cons, List.nodup_append,
    List.nodup_cons] at h
  obtain ⟨-, ⟨hbelow, -⟩, habove⟩ := h
  refine ⟨fun other hother => ?_, fun other hother heq => ?_⟩
  · exact habove _ (List.mem_map_of_mem hother) _ List.mem_cons_self
  · exact hbelow (heq ▸ List.mem_map_of_mem hother)

/-- What is put in the place of a source stands there once. -/
theorem Distinct.flatMap_at {above below : List Source} (h : Distinct ⟨above ++ other :: below⟩)
    (f : Source → List Source) :
    ((above ++ other :: below).flatMap fun third =>
      if third.name = other.name then f third else [third]) = above ++ f other ++ below := by
  have hself {l : List Source} (hl : ∀ third ∈ l, third.name ≠ other.name) :
      (l.flatMap fun third => if third.name = other.name then f third else [third]) = l := by
    induction l with
    | nil => rfl
    | cons third l ih =>
      rw [List.flatMap_cons, if_neg (hl third List.mem_cons_self),
        ih fun fourth hfourth => hl fourth (List.mem_cons_of_mem _ hfourth)]
      rfl
  obtain ⟨habove, hbelow⟩ := h.name_ne_of_split rfl
  rw [List.flatMap_append, List.flatMap_cons, hself habove, hself hbelow, if_pos rfl,
    List.append_assoc]

/-- A neighbour of the source to be added splits the chain without that source. -/
theorem Distinct.exists_split {relative : String} (h : chain.Distinct)
    (hneighbour : chain.isNeighbour relative source = true) :
    ∃ above other below, other.name = relative ∧
      chain.erase source.name = ⟨above ++ other :: below⟩ ∧
      Distinct ⟨above ++ other :: below⟩ ∧ source.name ∉ names ⟨above ++ other :: below⟩ := by
  obtain ⟨hcontains, hne⟩ := Bool.and_eq_true_iff.mp hneighbour
  obtain ⟨other, hmem, hname⟩ := List.mem_map.mp (contains_iff.mp hcontains)
  have hkept : other ∈ (chain.erase source.name).sources :=
    List.mem_filter.mpr ⟨hmem, by rwa [hname]⟩
  obtain ⟨above, below, hsplit⟩ := List.append_of_mem hkept
  have hsplit : chain.erase source.name = ⟨above ++ other :: below⟩ := congrArg Chain.mk hsplit
  refine ⟨above, other, below, hname, hsplit, ?_, ?_⟩
  · exact hsplit ▸ h.erase source.name
  · exact hsplit ▸ notMem_names_erase

theorem Distinct.addBefore?_of_split {above below : List Source}
    (h : Distinct ⟨above ++ other :: below⟩)
    (hneighbour : chain.isNeighbour other.name source = true)
    (hsplit : chain.erase source.name = ⟨above ++ other :: below⟩) :
    chain.addBefore? other.name source = some ⟨above ++ source :: other :: below⟩ := by
  rw [Chain.addBefore?, if_pos hneighbour, hsplit, h.flatMap_at, List.append_assoc]
  rfl

theorem Distinct.addAfter?_of_split {above below : List Source}
    (h : Distinct ⟨above ++ other :: below⟩)
    (hneighbour : chain.isNeighbour other.name source = true)
    (hsplit : chain.erase source.name = ⟨above ++ other :: below⟩) :
    chain.addAfter? other.name source = some ⟨above ++ other :: source :: below⟩ := by
  rw [Chain.addAfter?, if_pos hneighbour, hsplit, h.flatMap_at, List.append_assoc]
  rfl

/-- A source that is added before another one stands directly above it. -/
theorem Distinct.exists_addBefore? {relative : String} {after : Chain} (h : chain.Distinct)
    (hadd : chain.addBefore? relative source = some after) :
    ∃ above other below, other.name = relative ∧
      chain.erase source.name = ⟨above ++ other :: below⟩ ∧
      source.name ∉ names ⟨above ++ other :: below⟩ ∧
      after = ⟨above ++ source :: other :: below⟩ := by
  by_cases hneighbour : chain.isNeighbour relative source = true
  · obtain ⟨above, other, below, rfl, hsplit, herase, hnew⟩ := h.exists_split hneighbour
    rw [herase.addBefore?_of_split hneighbour hsplit] at hadd
    exact ⟨above, other, below, rfl, hsplit, hnew, (Option.some_inj.mp hadd).symm⟩
  · rw [Chain.addBefore?, if_neg hneighbour] at hadd
    cases hadd

/-- A source that is added after another one stands directly below it. -/
theorem Distinct.exists_addAfter? {relative : String} {after : Chain} (h : chain.Distinct)
    (hadd : chain.addAfter? relative source = some after) :
    ∃ above other below, other.name = relative ∧
      chain.erase source.name = ⟨above ++ other :: below⟩ ∧
      source.name ∉ names ⟨above ++ other :: below⟩ ∧
      after = ⟨above ++ other :: source :: below⟩ := by
  by_cases hneighbour : chain.isNeighbour relative source = true
  · obtain ⟨above, other, below, rfl, hsplit, herase, hnew⟩ := h.exists_split hneighbour
    rw [herase.addAfter?_of_split hneighbour hsplit] at hadd
    exact ⟨above, other, below, rfl, hsplit, hnew, (Option.some_inj.mp hadd).symm⟩
  · rw [Chain.addAfter?, if_neg hneighbour] at hadd
    cases hadd

theorem Distinct.addBefore? {relative : String} {after : Chain} (h : chain.Distinct)
    (hadd : chain.addBefore? relative source = some after) : after.Distinct := by
  obtain ⟨above, other, below, -, hsplit, hnew, rfl⟩ := h.exists_addBefore? hadd
  exact Distinct.insert above _ (hsplit ▸ h.erase source.name) hnew

theorem Distinct.addAfter? {relative : String} {after : Chain} (h : chain.Distinct)
    (hadd : chain.addAfter? relative source = some after) : after.Distinct := by
  obtain ⟨above, other, below, -, hsplit, hnew, rfl⟩ := h.exists_addAfter? hadd
  have herase := hsplit ▸ h.erase source.name
  rw [List.append_cons] at herase hnew ⊢
  exact Distinct.insert _ below herase hnew

/-! ### Replacing a source -/

@[simp] theorem names_replace : (chain.replace source).names = chain.names := by
  rw [replace, names, names, List.map_map]
  refine List.map_congr_left fun other _ => ?_
  by_cases h : other.name = source.name <;> simp [h]

theorem Distinct.replace (h : chain.Distinct) (source : Source) :
    (chain.replace source).Distinct := by
  rw [Distinct, names_replace]
  exact h

/-- Of two replacements under one name, the second one counts. -/
theorem replace_replace (h : other.name = source.name) :
    (chain.replace other).replace source = chain.replace source := by
  simp only [replace, List.map_map, Chain.mk.injEq]
  refine List.map_congr_left fun third _ => ?_
  by_cases hthird : third.name = source.name <;> simp [h, hthird]

/-- Putting a source in its own place changes nothing. -/
theorem Distinct.replace_eq_self (h : chain.Distinct) (hget : chain.get? name = some source) :
    chain.replace source = chain := by
  obtain ⟨above, below, hsplit⟩ := List.append_of_mem (mem_of_get? hget)
  obtain ⟨habove, hbelow⟩ := h.name_ne_of_split hsplit
  obtain ⟨sources⟩ := chain
  simp only [Chain.replace, Chain.mk.injEq] at hsplit ⊢
  refine (List.map_congr_left fun other hother => ?_).trans (List.map_id sources)
  rw [hsplit, List.mem_append, List.mem_cons] at hother
  rcases hother with hother | rfl | hother
  · rw [if_neg (habove other hother), id]
  · rw [if_pos rfl, id]
  · rw [if_neg (hbelow other hother), id]

/-! ### Operations at a position -/

/-- The first position at which a source of the name stands. -/
def position? (chain : Chain) (name : String) : Option Nat :=
  chain.sources.findIdx? fun source => source.name = name

theorem position?_eq_none_iff : chain.position? name = none ↔ name ∉ chain.names := by
  simp [position?, names]

theorem position?_of_split {above below : List Source}
    (h : ∀ third ∈ above, third.name ≠ other.name) :
    position? ⟨above ++ other :: below⟩ other.name = some above.length := by
  have habove : above.findIdx? (fun third => decide (third.name = other.name)) = none :=
    List.findIdx?_eq_none_iff.mpr fun third hthird => decide_eq_false (h third hthird)
  rw [position?, List.findIdx?_append, habove, List.findIdx?_cons, decide_eq_true rfl, if_pos rfl,
    Option.map_some, Nat.zero_add]
  rfl

/-- A name that a chain with distinct names has splits it at the first position of the name. -/
theorem Distinct.exists_split_at (h : chain.Distinct) {position : Nat}
    (hposition : chain.position? name = some position) :
    ∃ above other below, chain = ⟨above ++ other :: below⟩ ∧ other.name = name ∧
      above.length = position ∧ (∀ third ∈ above, third.name ≠ name) ∧
        ∀ third ∈ below, third.name ≠ name := by
  have hmem : name ∈ chain.names := by
    by_contra hnot
    rw [position?_eq_none_iff.mpr hnot] at hposition
    cases hposition
  obtain ⟨other, hother, rfl⟩ := List.mem_map.mp hmem
  obtain ⟨above, below, hsplit⟩ := List.append_of_mem hother
  obtain ⟨habove, hbelow⟩ := h.name_ne_of_split hsplit
  obtain rfl : chain = ⟨above ++ other :: below⟩ := congrArg Chain.mk hsplit
  rw [position?_of_split habove] at hposition
  exact ⟨above, other, below, rfl, rfl, Option.some_inj.mp hposition, habove, hbelow⟩

/-- Where names are distinct, a source is removed at the first position of its name. -/
theorem Distinct.erase_eq (h : chain.Distinct) (name : String) :
    chain.erase name = (chain.position? name).elim chain fun position =>
      ⟨chain.sources.eraseIdx position⟩ := by
  cases hposition : chain.position? name with
  | none =>
    have hnone := position?_eq_none_iff.mp hposition
    refine congrArg Chain.mk (List.filter_eq_self.mpr fun source hsource => ?_)
    exact bne_iff_ne.mpr fun heq => hnone (heq ▸ List.mem_map_of_mem hsource)
  | some position =>
    obtain ⟨above, other, below, rfl, rfl, rfl, habove, hbelow⟩ := h.exists_split_at hposition
    have hkept {l : List Source} (hl : ∀ third ∈ l, third.name ≠ other.name) :
        l.filter (fun third => third.name != other.name) = l :=
      List.filter_eq_self.mpr fun third hthird => bne_iff_ne.mpr (hl third hthird)
    rw [Option.elim_some, Chain.erase, List.filter_append, List.filter_cons, hkept habove,
      hkept hbelow, List.eraseIdx_append_of_length_le (Nat.le_refl _), Nat.sub_self]
    simp

/-- Where names are distinct, a source is replaced at the first position of its name. -/
theorem Distinct.replace_eq (h : chain.Distinct) (source : Source) :
    chain.replace source = (chain.position? source.name).elim chain fun position =>
      ⟨chain.sources.set position source⟩ := by
  have hkept {l : List Source} (hl : ∀ third ∈ l, third.name ≠ source.name) :
      l.map (fun third => if third.name = source.name then source else third) = l :=
    (List.map_congr_left fun third hthird => if_neg (hl third hthird)).trans (List.map_id l)
  cases hposition : chain.position? source.name with
  | none =>
    have hnone := position?_eq_none_iff.mp hposition
    exact congrArg Chain.mk (hkept fun third hthird heq =>
      hnone (heq ▸ List.mem_map_of_mem hthird))
  | some position =>
    obtain ⟨above, other, below, rfl, hname, rfl, habove, hbelow⟩ := h.exists_split_at hposition
    rw [Option.elim_some, Chain.replace, List.map_append, List.map_cons, hkept habove,
      hkept hbelow, if_pos hname, List.set_append_right _ _ (Nat.le_refl _), Nat.sub_self]
    rfl

private theorem insertIdx_length {α : Type} (above below : List α) (a : α) :
    (above ++ below).insertIdx above.length a = above ++ a :: below := by
  induction above with
  | nil => rfl
  | cons b above ih => exact congrArg (b :: ·) ih

/-- Where names are distinct, a source is added at the first position of its neighbour in what is
left without it. -/
theorem Distinct.addBefore?_eq (h : chain.Distinct) (relative : String) (source : Source) :
    chain.addBefore? relative source =
      if chain.isNeighbour relative source then
        ((chain.erase source.name).position? relative).map fun position =>
          ⟨(chain.erase source.name).sources.insertIdx position source⟩
      else none := by
  by_cases hneighbour : chain.isNeighbour relative source = true
  · obtain ⟨above, other, below, rfl, hsplit, herase, -⟩ := h.exists_split hneighbour
    rw [herase.addBefore?_of_split hneighbour hsplit, if_pos hneighbour, hsplit,
      position?_of_split (herase.name_ne_of_split rfl).1, Option.map_some, insertIdx_length]
  · rw [Chain.addBefore?, if_neg hneighbour, if_neg hneighbour]

/-- Where names are distinct, a source is added behind the first position of its neighbour in what
is left without it. -/
theorem Distinct.addAfter?_eq (h : chain.Distinct) (relative : String) (source : Source) :
    chain.addAfter? relative source =
      if chain.isNeighbour relative source then
        ((chain.erase source.name).position? relative).map fun position =>
          ⟨(chain.erase source.name).sources.insertIdx (position + 1) source⟩
      else none := by
  by_cases hneighbour : chain.isNeighbour relative source = true
  · obtain ⟨above, other, below, rfl, hsplit, herase, -⟩ := h.exists_split hneighbour
    have hinsert := insertIdx_length (above ++ [other]) below source
    rw [List.length_append, List.append_assoc, List.append_assoc] at hinsert
    rw [herase.addAfter?_of_split hneighbour hsplit, if_pos hneighbour, hsplit,
      position?_of_split (herase.name_ne_of_split rfl).1, Option.map_some]
    exact congrArg (fun sources => some (Chain.mk sources)) hinsert.symm
  · rw [Chain.addAfter?, if_neg hneighbour, if_neg hneighbour]

/-! ### A block above the default properties -/

/-- A source that is not the default properties. -/
def isOrdinary (source : Source) : Bool :=
  source.name != defaultPropertiesName

/-- A source that has none of the given names. -/
def isOtherThan (names : List String) (source : Source) : Bool :=
  !names.contains source.name

/-- The chain without the sources of the given names. -/
def omitting (chain : Chain) (names : List String) : Chain :=
  ⟨chain.sources.filter (isOtherThan names)⟩

/-- The chain with a block of sources in the place of all others of their names, directly above
the default properties, or at the end where there are none. -/
def withBlock (chain : Chain) (block : List Source) : Chain :=
  let kept := (chain.omitting (block.map Source.name)).sources
  ⟨kept.takeWhile isOrdinary ++ block ++ kept.dropWhile isOrdinary⟩

@[simp] theorem withBlock_nil : chain.withBlock [] = chain := by
  have hall : chain.sources.filter (isOtherThan []) = chain.sources :=
    List.filter_eq_self.mpr fun _ _ => rfl
  simp [withBlock, omitting, hall]

theorem Distinct.omitting (h : chain.Distinct) (names : List String) :
    (chain.omitting names).Distinct :=
  h.sublist (List.filter_sublist.map Source.name)

theorem name_notMem_of_mem_omitting {names : List String}
    (h : source ∈ (chain.omitting names).sources) : source.name ∉ names := by
  simpa [isOtherThan] using (List.mem_filter.mp h).2

theorem get?_omitting {names : List String} (h : name ∉ names) :
    (chain.omitting names).get? name = chain.get? name := by
  rw [Chain.get?, Chain.omitting, List.find?_filter, Chain.get?]
  congr 1
  funext source
  by_cases hname : source.name = name <;> simp [isOtherThan, hname, h]

/-- The old sources stand as they did, and the block is new. -/
theorem Distinct.withBlock (h : chain.Distinct) (hblock : (block.map Source.name).Nodup) :
    (chain.withBlock block).Distinct := by
  let kept := (chain.omitting (block.map Source.name)).sources
  have hkept :
      ((kept.takeWhile isOrdinary ++ kept.dropWhile isOrdinary).map Source.name).Nodup := by
    rw [List.takeWhile_append_dropWhile]
    exact h.omitting _
  have hperm : ((chain.withBlock block).sources).Perm
      ((kept.takeWhile isOrdinary ++ kept.dropWhile isOrdinary) ++ block) := by
    rw [Chain.withBlock, List.append_assoc, List.append_assoc]
    exact List.perm_append_comm.append_left _
  rw [Distinct, names, (hperm.map Source.name).nodup_iff, List.map_append, List.nodup_append]
  refine ⟨hkept, hblock, ?_⟩
  rintro name hname other hother rfl
  rw [List.takeWhile_append_dropWhile] at hname
  obtain ⟨source, hsource, rfl⟩ := List.mem_map.mp hname
  exact name_notMem_of_mem_omitting hsource hother

/-- The sources that are not of the block stand as they did. -/
theorem omitting_withBlock :
    (chain.withBlock block).omitting (block.map Source.name) =
      chain.omitting (block.map Source.name) := by
  have hblock : block.filter (isOtherThan (block.map Source.name)) = [] := by
    refine List.filter_eq_nil_iff.mpr fun source hsource => ?_
    simpa [isOtherThan] using ⟨source, hsource, rfl⟩
  have hkept (l : List Source) (hl : l.Sublist (chain.omitting (block.map Source.name)).sources) :
      l.filter (isOtherThan (block.map Source.name)) = l := by
    refine List.filter_eq_self.mpr fun source hsource => ?_
    simpa [isOtherThan] using name_notMem_of_mem_omitting (hl.subset hsource)
  rw [Chain.omitting, Chain.withBlock, List.filter_append, List.filter_append, hblock,
    hkept _ (List.takeWhile_sublist _), hkept _ (List.dropWhile_sublist _), List.append_nil,
    List.takeWhile_append_dropWhile]

/-- A source that is not of the block is found as before. -/
theorem get?_withBlock (h : name ∉ block.map Source.name) :
    (chain.withBlock block).get? name = chain.get? name := by
  rw [← get?_omitting h, omitting_withBlock, get?_omitting h]

/-- A replacement of a source that is not of the block can be made before the block is put in. -/
theorem replace_withBlock (h : source.name ∉ block.map Source.name) :
    (chain.withBlock block).replace source = (chain.replace source).withBlock block := by
  let exchange (other : Source) : Source := if other.name = source.name then source else other
  have hname (other : Source) : (exchange other).name = other.name := by
    by_cases hother : other.name = source.name <;> simp [exchange, hother]
  have hblock : block.map exchange = block := by
    refine (List.map_congr_left fun other hother => ?_).trans (List.map_id block)
    have hne : other.name ≠ source.name := fun heq => h (heq ▸ List.mem_map_of_mem hother)
    simp [exchange, hne]
  have hkept : ((chain.replace source).omitting (block.map Source.name)).sources =
      (chain.omitting (block.map Source.name)).sources.map exchange := by
    have hother : isOtherThan (block.map Source.name) ∘ exchange =
        isOtherThan (block.map Source.name) := by
      funext other
      simp only [Function.comp_apply, isOtherThan, hname]
    rw [Chain.omitting, Chain.omitting, replace, List.filter_map]
    change (chain.sources.filter (isOtherThan _ ∘ exchange)).map exchange = _
    rw [hother]
  have hordinary : isOrdinary ∘ exchange = isOrdinary := by
    funext other
    simp [isOrdinary, hname]
  unfold Chain.withBlock
  simp only [hkept, List.takeWhile_map, List.dropWhile_map, hordinary]
  rw [replace, List.map_append, List.map_append]
  change (⟨_ ++ block.map exchange ++ _⟩ : Chain) = _
  rw [hblock]

/-- A source of the block ranks above the default properties. -/
theorem before_withBlock (h : name ∈ block.map Source.name)
    (hdefaults : defaultPropertiesName ∈ chain.names)
    (hblock : defaultPropertiesName ∉ block.map Source.name) :
    Before (chain.withBlock block).names name defaultPropertiesName := by
  let kept := (chain.omitting (block.map Source.name)).sources
  have hbelow : defaultPropertiesName ∈ (kept.dropWhile isOrdinary).map Source.name := by
    obtain ⟨defaults, hmem, hname⟩ := List.mem_map.mp hdefaults
    have hkept : defaults ∈ kept :=
      List.mem_filter.mpr ⟨hmem, by simpa [isOtherThan, hname] using hblock⟩
    rw [← List.takeWhile_append_dropWhile (p := isOrdinary) (l := kept), List.mem_append] at hkept
    refine List.mem_map.mpr ⟨defaults, hkept.resolve_left fun habove => ?_, hname⟩
    simpa [isOrdinary, hname] using List.mem_takeWhile_imp habove
  rw [names, Chain.withBlock, List.append_assoc, List.map_append, List.map_append]
  exact (before_append h hbelow).trans (List.sublist_append_right ..)

end Chain

/-- Reordering moves the default properties to the end and leaves the others as they stand. -/
theorem Environment.sources_reorder (env : Environment) :
    env.reorder.chain.sources =
      env.chain.sources.filter Chain.isOrdinary ++
        (env.chain.get? defaultPropertiesName).toList := by
  unfold Environment.reorder
  cases hget : env.chain.get? defaultPropertiesName with
  | none =>
    have hnone := Chain.get?_eq_none_iff.mp hget
    have hall : env.chain.sources.filter Chain.isOrdinary = env.chain.sources := by
      refine List.filter_eq_self.mpr fun source hsource => ?_
      have hne : source.name ≠ defaultPropertiesName := fun heq =>
        hnone (heq ▸ List.mem_map_of_mem hsource)
      simpa [Chain.isOrdinary] using hne
    simp [hall]
  | some defaults =>
    simp only [Chain.addLast, Chain.erase, Chain.name_of_get? hget, List.filter_filter,
      Bool.and_self, Option.toList_some]
    rfl

end LayeredConfig
