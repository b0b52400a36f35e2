import LayeredConfig.Proofs.Layers.Ranking

/-!
# The collected sources stand in one block

The layers put their sources into a chain one after the other: the first directly above the
default properties, or at the end, and every other one directly below the one before it. Each
takes the place of an older source of its name, which may have stood anywhere. What results is
the chain without those older sources and with all new ones in one block.

## Main results

* `Layers.placeAll_eq_withBlock`: sources that are placed one after the other stand in a block.
* `Layers.exists_of_mem_collected`: what is collected was picked up.
-/

namespace LayeredConfig

open Chain

namespace Layers

variable {source last : Source} {sources above below : List Source}

private theorem filter_isOtherThan_cons (name : String) (names : List String) (l : List Source) :
    (l.filter fun other => other.name != name).filter (isOtherThan names) =
      l.filter (isOtherThan (name :: names)) := by
  rw [List.filter_filter]
  refine List.filter_congr fun other _ => ?_
  by_cases hname : other.name = name <;> simp [isOtherThan, hname]

private theorem takeWhile_filter {p q : Source → Bool}
    (h : ∀ other, p other = false → q other = true) (l : List Source) :
    (l.filter q).takeWhile p = (l.takeWhile p).filter q := by
  induction l with
  | nil => rfl
  | cons other l ih =>
    by_cases hp : p other = true
    · by_cases hq : q other = true <;> simp [hp, hq, ih]
    · simp [hp, h other (by simpa using hp)]

private theorem dropWhile_filter {p q : Source → Bool}
    (h : ∀ other, p other = false → q other = true) (l : List Source) :
    (l.filter q).dropWhile p = (l.dropWhile p).filter q := by
  induction l with
  | nil => rfl
  | cons other l ih =>
    by_cases hp : p other = true
    · by_cases hq : q other = true <;> simp [hp, hq, ih]
    · simp [hp, h other (by simpa using hp)]

/-! ### One source -/

private theorem erase_split (hname : source.name ≠ last.name) :
    erase ⟨above ++ last :: below⟩ source.name =
      ⟨above.filter (fun other => other.name != source.name) ++
        last :: below.filter fun other => other.name != source.name⟩ := by
  rw [erase, List.filter_append, List.filter_cons_of_pos (by simpa using Ne.symm hname)]

/-- A source that is placed after another one stands directly below it. -/
private theorem place_after (hdistinct : Distinct ⟨above ++ last :: below⟩)
    (hname : source.name ≠ last.name) :
    place ⟨above ++ last :: below⟩ (some last.name) source =
      ⟨above.filter (fun other => other.name != source.name) ++
        last :: source :: below.filter fun other => other.name != source.name⟩ := by
  have hneighbour : isNeighbour ⟨above ++ last :: below⟩ last.name source = true := by
    simp [isNeighbour, Chain.contains, Ne.symm hname]
  have herase := hdistinct.erase source.name
  rw [erase_split hname] at herase
  rw [place, addAfter?, if_pos hneighbour, Option.getD_some, erase_split hname, herase.flatMap_at,
    List.append_assoc]
  rfl

/-- The first source that is placed stands directly above the default properties, or at the end
where there are none. -/
private theorem place_first {chain : Chain} (hdistinct : chain.Distinct)
    (hname : source.name ≠ defaultPropertiesName) :
    place chain none source =
      ⟨(chain.erase source.name).sources.takeWhile isOrdinary ++
        source :: (chain.erase source.name).sources.dropWhile isOrdinary⟩ := by
  by_cases hdefaults : defaultPropertiesName ∈ chain.names
  · have hneighbour : chain.isNeighbour defaultPropertiesName source = true := by
      simp [isNeighbour, Chain.contains_iff, hdefaults, Ne.symm hname]
    obtain ⟨above, defaults, below, hreserved, hsplit, herase, -⟩ :=
      hdistinct.exists_split hneighbour
    have hordinary : ∀ other ∈ above, isOrdinary other = true := fun other hother => by
      simpa [isOrdinary, hreserved] using (herase.name_ne_of_split rfl).1 other hother
    have hstop : isOrdinary defaults = false := by simp [isOrdinary, hreserved]
    rw [place, addBefore?, if_pos hneighbour, Option.getD_some, hsplit, ← hreserved,
      herase.flatMap_at, List.takeWhile_append_of_pos hordinary,
      List.dropWhile_append_of_pos hordinary, List.takeWhile_cons_of_neg (by simp [hstop]),
      List.dropWhile_cons_of_neg (by simp [hstop])]
    simp
  · have hneighbour : chain.isNeighbour defaultPropertiesName source = false := by
      simp [isNeighbour, Chain.contains_iff, ← Bool.not_eq_true, hdefaults]
    have hordinary : ∀ other ∈ (chain.erase source.name).sources, isOrdinary other = true := by
      intro other hother
      have hne : other.name ≠ defaultPropertiesName := fun heq =>
        hdefaults (heq ▸ List.mem_map_of_mem (List.mem_filter.mp hother).1)
      simpa [isOrdinary] using hne
    rw [place, addBefore?, hneighbour, addLast, List.takeWhile_eq_self_iff.mpr hordinary,
      List.dropWhile_eq_nil_iff.mpr hordinary]
    rfl

/-! ### All sources -/

/-- Placing a source after another one keeps the names distinct. -/
private theorem distinct_placed (hdistinct : Distinct ⟨above ++ last :: below⟩)
    (hname : source.name ≠ last.name) :
    Distinct ⟨above.filter (fun other => other.name != source.name) ++
      last :: source :: below.filter fun other => other.name != source.name⟩ := by
  have herase := hdistinct.erase source.name
  have hnew : source.name ∉ (erase ⟨above ++ last :: below⟩ source.name).names := notMem_names_erase
  rw [erase_split hname, List.append_cons] at herase hnew
  rw [List.append_cons]
  exact herase.insert _ _ hnew

/-- Sources that are placed after another one stand in a block below it. -/
private theorem placeAll_after (hdistinct : Distinct ⟨above ++ last :: below⟩)
    (hnodup : ((last :: sources).map Source.name).Nodup) :
    placeAll ⟨above ++ last :: below⟩ (some last.name) sources =
      ⟨above.filter (isOtherThan (sources.map Source.name)) ++ last :: sources ++
        below.filter (isOtherThan (sources.map Source.name))⟩ := by
  induction sources generalizing above last below with
  | nil =>
    have hall (l : List Source) : l.filter (isOtherThan []) = l :=
      List.filter_eq_self.mpr fun _ _ => rfl
    simp only [placeAll, List.map_nil, hall, List.append_assoc, List.cons_append, List.nil_append]
  | cons source sources ih =>
    rw [List.map_cons, List.map_cons, List.nodup_cons] at hnodup
    obtain ⟨hlast, hnodup⟩ := hnodup
    rw [List.mem_cons, not_or] at hlast
    have hname : source.name ≠ last.name := Ne.symm hlast.1
    have hkept : [last].filter (isOtherThan (sources.map Source.name)) = [last] := by
      refine List.filter_cons_of_pos ?_
      simpa [isOtherThan] using hlast.2
    -- What is placed now is the last source that is in its place for those that follow.
    have hplaced := distinct_placed hdistinct hname
    rw [List.append_cons] at hplaced
    rw [placeAll, place_after hdistinct hname, List.append_cons, ih hplaced hnodup,
      List.filter_append, filter_isOtherThan_cons, filter_isOtherThan_cons, hkept, List.map_cons]
    simp

/-- Sources that are placed one after the other stand in a block above the default properties. -/
theorem placeAll_eq_withBlock {chain : Chain} (hdistinct : chain.Distinct)
    (hnodup : (sources.map Source.name).Nodup)
    (hnames : defaultPropertiesName ∉ sources.map Source.name) :
    placeAll chain none sources = chain.withBlock sources := by
  cases sources with
  | nil => exact withBlock_nil.symm
  | cons source sources =>
    rw [List.map_cons, List.mem_cons, not_or] at hnames
    let kept := (chain.erase source.name).sources
    have hkept : kept.takeWhile isOrdinary ++ kept.dropWhile isOrdinary = kept :=
      List.takeWhile_append_dropWhile
    have hplaced : Distinct ⟨kept.takeWhile isOrdinary ++ source :: kept.dropWhile isOrdinary⟩ := by
      refine Distinct.insert _ _ ?_ ?_
      · rw [hkept]
        exact hdistinct.erase source.name
      · rw [hkept]
        exact notMem_names_erase
    have hdefaults (other : Source) (hother : isOrdinary other = false) :
        isOtherThan (sources.map Source.name) other = true := by
      rw [isOrdinary, bne_eq_false_iff_eq] at hother
      simpa [isOtherThan, hother] using hnames.2
    rw [placeAll, place_first hdistinct (Ne.symm hnames.1), placeAll_after hplaced hnodup,
      withBlock, omitting, List.map_cons, ← filter_isOtherThan_cons,
      takeWhile_filter hdefaults, dropWhile_filter hdefaults]
    rfl

/-! ### What is collected -/

private theorem mem_group_accept {layers : Layers} {profile : Profile} {placement : Placement}
    {added : Source} {key : Option String}
    (h : source ∈ ((layers.accept profile added placement).group key).sources) :
    source ∈ (layers.group key).sources ∨ source = added := by
  have hupdate {change : Chain → Chain}
      (hchange : ∀ chain : Chain, source ∈ (change chain).sources →
        source ∈ chain.sources ∨ source = added)
      (h : source ∈ (group ⟨update profile change layers.groups⟩ key).sources) :
      source ∈ (layers.group key).sources ∨ source = added := by
    rw [group_update] at h
    split at h
    · exact hchange _ h
    · exact .inl h
  unfold accept at h
  split at h
  · refine hupdate (fun chain hmem => ?_) h
    rcases List.mem_append.mp hmem with hmem | hmem
    · exact .inl (List.mem_filter.mp hmem).1
    · exact .inr (List.mem_singleton.mp hmem)
  · split at h
    · exact .inl h
    · refine hupdate (fun chain hmem => ?_) h
      rcases List.mem_cons.mp hmem with hmem | hmem
      · exact .inr hmem
      · exact .inl (List.mem_filter.mp hmem).1

private theorem mem_group_gather {pickups : List Pickup} {key : Option String}
    (h : source ∈ ((gather {} pickups).group key).sources) :
    ∃ pickup ∈ pickups, pickup.document.source = source := by
  induction pickups using List.reverseRecOn with
  | nil => cases h
  | append_singleton pickups pickup ih =>
    rw [gather, List.foldl_append] at h
    rcases mem_group_accept h with h | rfl
    · obtain ⟨other, hother, hsource⟩ := ih h
      exact ⟨other, List.mem_append_left _ hother, hsource⟩
    · exact ⟨pickup, by simp, rfl⟩

/-- What is collected was picked up. -/
theorem exists_of_mem_collected {pickups : Array Pickup}
    (h : source ∈ (ofPickups pickups).collected) :
    ∃ pickup ∈ pickups, pickup.document.source = source := by
  have hkeys : (gather {} pickups.toList).keys.Nodup := nodup_keys_gather (by simp [keys]) _
  rw [ofPickups_eq_gather] at h
  obtain ⟨⟨profile, chain⟩, hgroup, hmem⟩ :=
    List.mem_flatMap.mp (List.mem_of_find?_eq_some (find?_of_mem_eraseDupsBy h))
  rw [← group_eq_of_mem hkeys (List.mem_reverse.mp hgroup)] at hmem
  obtain ⟨pickup, hpickup, hsource⟩ := mem_group_gather hmem
  exact ⟨pickup, Array.mem_toList_iff.mp hpickup, hsource⟩

end Layers

end LayeredConfig
