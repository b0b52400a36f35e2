import LayeredConfig.Proofs.Layers.Splice

/-!
# The layers of any offers

Sources are offered to the layers one after the other, each for a profile. A source that joins
only when it is absent is turned away once any source of its name was offered, for whatever
profile. In the group of a profile, each name stands where it was taken last: those put at the
front come first, the latest of them at the top, and then those put at the end, in their order.

When the layers are put into a chain, the group that began last is walked through first. What is
first met under each name makes one block, which takes the place of all sources of these names
and stands directly above the default properties, or at the end where there are none.

## Main definitions

* `Offer`, `Layers.ofOffers`: a source that is offered, and the layers of some offers.
* `Offer.taken`, `Offer.standing`: the offers that are taken, and what is left of them in a group.
* `Offer.begun`, `Offer.group`, `Offer.walk`: the groups, and all sources in them.

## Main results

* `Layers.keys_ofOffers`, `Layers.group_ofOffers`: the groups of the layers.
* `Layers.splice_ofOffers`: what the layers of any offers make of a chain.
-/

namespace LayeredConfig

/-- A source that is offered to the layers. -/
structure Offer where
  profile : Profile
  source : Source
  placement : Placement
  deriving DecidableEq, Repr

namespace Offer

/-- The name of the source. -/
def name (offer : Offer) : String :=
  offer.source.name

/-- The source is taken when others of the given names were offered before. -/
def Joins (offer : Offer) (names : List String) : Prop :=
  offer.placement = .append ∨ offer.name ∉ names

instance (offer : Offer) (names : List String) : Decidable (offer.Joins names) :=
  inferInstanceAs (Decidable (_ ∨ _))

/-- The offers that are taken when sources of the given names were offered before. -/
def taken (names : List String) : List Offer → List Offer
  | [] => []
  | offer :: offers =>
    if offer.Joins names then offer :: taken (names ++ [offer.name]) offers
    else taken (names ++ [offer.name]) offers

/-- The offers that are left in the group of a profile: the last one taken of each name. -/
def standing (offers : List Offer) (key : Option String) : List Offer :=
  (((taken [] offers).filter fun offer => offer.profile.name? = key).reverse.eraseDupsBy
    fun a b => a.name == b.name).reverse

/-- The sources of offers as they stand in a group: those put at the front, the latest at the
top, then those put at the end. -/
def arrange (offers : List Offer) : List Source :=
  (offers.filter (·.placement = .prependIfAbsent)).reverse.map source ++
    (offers.filter (·.placement = .append)).map source

/-- The sources in the group of a profile. -/
def group (offers : List Offer) (key : Option String) : List Source :=
  arrange (standing offers key)

/-- The names of the profiles that have a group, in the order in which the groups began. -/
def begun (offers : List Offer) : List (Option String) :=
  ((taken [] offers).map fun offer => offer.profile.name?).eraseDups

/-- The sources of all groups, group by group, those of the last one first. -/
def walk (offers : List Offer) : List Source :=
  (begun offers).reverse.flatMap (group offers)

/-- A group with the source put where the offer says. -/
def join (offer : Offer) (chain : Chain) : Chain :=
  match offer.placement with
  | .append => chain.addLast offer.source
  | .prependIfAbsent => chain.addFirst offer.source

variable {offers : List Offer} {offer : Offer} {key : Option String}

/-! ### One more offer -/

private theorem taken_concat_after (names : List String) (offers : List Offer) (offer : Offer) :
    taken names (offers ++ [offer]) = taken names offers ++
      if offer.Joins (names ++ offers.map Offer.name) then [offer] else [] := by
  induction offers generalizing names with
  | nil => simp [taken]
  | cons first offers ih =>
    rw [List.cons_append, taken, taken, ih, List.map_cons,
      List.append_cons names first.name (offers.map _)]
    split
    · rw [List.cons_append]
    · rfl

/-- An offer that joins comes after all others that were taken. -/
theorem taken_concat (offers : List Offer) (offer : Offer) :
    taken [] (offers ++ [offer]) =
      taken [] offers ++ if offer.Joins (offers.map Offer.name) then [offer] else [] :=
  taken_concat_after [] offers offer

theorem standing_concat_same
    (htaken : taken [] (offers ++ [offer]) = taken [] offers ++ [offer])
    (hkey : offer.profile.name? = key) :
    standing (offers ++ [offer]) key =
      (standing offers key).filter (fun other => other.name != offer.name) ++ [offer] := by
  rw [standing, htaken, List.filter_append, List.filter_cons_of_pos (by simpa using hkey),
    List.filter_nil, eraseDupsBy_reverse_concat]
  rfl

theorem standing_concat_other
    (htaken : taken [] (offers ++ [offer]) = taken [] offers ++ [offer])
    (hkey : offer.profile.name? ≠ key) :
    standing (offers ++ [offer]) key = standing offers key := by
  rw [standing, htaken, List.filter_append, List.filter_cons_of_neg (by simpa using hkey),
    List.filter_nil, List.append_nil]
  rfl

private theorem arrange_filter (offers : List Offer) (name : String) :
    arrange (offers.filter fun offer => offer.name != name) =
      (arrange offers).filter fun source => source.name != name := by
  have hname : (fun source : Source => source.name != name) ∘ Offer.source =
      fun offer => offer.name != name := rfl
  simp only [arrange, List.filter_append, List.filter_map, List.filter_reverse, hname,
    List.filter_filter, Bool.and_comm]

theorem arrange_concat (offers : List Offer) (offer : Offer) :
    arrange (offers.filter (fun other => other.name != offer.name) ++ [offer]) =
      (offer.join ⟨arrange offers⟩).sources := by
  have hrest : (arrange offers).filter (fun source => source.name != offer.source.name) =
      arrange (offers.filter fun other => other.name != offer.name) :=
    (arrange_filter offers offer.name).symm
  unfold join
  cases hplacement : offer.placement with
  | append =>
    rw [Chain.addLast, Chain.erase, hrest]
    simp [arrange, hplacement]
  | prependIfAbsent =>
    rw [Chain.addFirst, Chain.erase, hrest]
    simp [arrange, hplacement]

end Offer

/-! ### The groups -/

namespace Layers

open Offer

/-- The layers of some offers, made one after the other. -/
def ofOffers (offers : List Offer) : Layers :=
  offers.foldl (fun layers offer => layers.accept offer.profile offer.source offer.placement) {}

variable {layers : Layers} {profile : Profile} {source : Source} {name : String}

private theorem mem_names_update {change : Chain → Chain}
    (hchange : ∀ chain : Chain, name ∈ (change chain).names ↔
      name ∈ chain.names ∨ name = source.name) :
    (∃ key, name ∈ names ⟨update profile change layers.groups⟩ key) ↔
      (∃ key, name ∈ layers.names key) ∨ name = source.name := by
  simp only [names, group_update]
  constructor
  · rintro ⟨key, hname⟩
    split at hname
    · exact ((hchange _).mp hname).imp_left fun hname => ⟨key, hname⟩
    · exact .inl ⟨key, hname⟩
  · rintro (⟨key, hname⟩ | rfl)
    · refine ⟨key, ?_⟩
      split
      · exact (hchange _).mpr (.inl hname)
      · exact hname
    · refine ⟨profile.name?, ?_⟩
      rw [if_pos rfl]
      exact (hchange _).mpr (.inr rfl)

/-- Whatever is offered, the layers contain its name from then on. -/
theorem contains_accept (h : layers.keys.Nodup) (profile : Profile) (source : Source)
    (placement : Placement) : (layers.accept profile source placement).contains name = true ↔
      layers.contains name = true ∨ name = source.name := by
  rw [contains_iff (nodup_keys_accept h profile source placement), contains_iff h]
  unfold accept
  split
  · refine mem_names_update fun chain => ?_
    rw [Chain.names_addLast, List.mem_append, List.mem_filter, bne_iff_ne, List.mem_singleton]
    tauto
  · split
    · next hthere =>
      refine ⟨.inl, fun hname => hname.elim id ?_⟩
      rintro rfl
      exact (contains_iff h).mp hthere
    · refine mem_names_update fun chain => ?_
      rw [Chain.names_addFirst, List.mem_cons, List.mem_filter, bne_iff_ne]
      tauto

private theorem ofOffers_concat_accept (offers : List Offer) (offer : Offer) :
    ofOffers (offers ++ [offer]) =
      (ofOffers offers).accept offer.profile offer.source offer.placement := by
  rw [ofOffers, List.foldl_append]
  rfl

theorem nodup_keys_ofOffers (offers : List Offer) : (ofOffers offers).keys.Nodup := by
  induction offers using List.reverseRecOn with
  | nil => exact List.nodup_nil
  | append_singleton offers offer ih =>
    rw [ofOffers_concat_accept]
    exact nodup_keys_accept ih _ _ _

theorem contains_ofOffers (offers : List Offer) :
    (ofOffers offers).contains name = true ↔ name ∈ offers.map Offer.name := by
  induction offers using List.reverseRecOn with
  | nil => simp [ofOffers, contains]
  | append_singleton offers offer ih =>
    rw [ofOffers_concat_accept, contains_accept (nodup_keys_ofOffers offers), ih, List.map_append,
      List.mem_append, List.map_singleton, List.mem_singleton]
    rfl

/-- An offer that is taken changes the group of its profile; another one changes nothing. -/
theorem ofOffers_concat (offers : List Offer) (offer : Offer) :
    ofOffers (offers ++ [offer]) =
      if offer.Joins (offers.map Offer.name) then
        ⟨update offer.profile offer.join (ofOffers offers).groups⟩
      else ofOffers offers := by
  rw [ofOffers_concat_accept]
  unfold accept join
  cases hplacement : offer.placement with
  | append =>
    have hjoins : offer.Joins (offers.map Offer.name) := .inl hplacement
    rw [if_pos hjoins]
  | prependIfAbsent =>
    have hjoins : offer.Joins (offers.map Offer.name) ↔
        ¬ (ofOffers offers).contains offer.source.name = true := by
      rw [contains_ofOffers, Joins, hplacement]
      simp [Offer.name]
    by_cases hthere : (ofOffers offers).contains offer.source.name = true
    · rw [if_neg (hjoins.not.mpr (not_not_intro hthere))]
      exact if_pos hthere
    · rw [if_pos (hjoins.mpr hthere)]
      exact if_neg hthere

/-- The groups begin in the order in which the first offers for their profiles are taken. -/
theorem keys_ofOffers (offers : List Offer) : (ofOffers offers).keys = begun offers := by
  induction offers using List.reverseRecOn with
  | nil => rfl
  | append_singleton offers offer ih =>
    rw [ofOffers_concat, begun, taken_concat]
    split
    · rw [keys_update, ih, List.map_append, List.map_singleton, eraseDups_concat]
      simp only [begun, List.mem_eraseDups]
    · rw [List.append_nil, ih, begun]

/-- In its group, each name stands where it was taken last. -/
theorem group_ofOffers (offers : List Offer) (key : Option String) :
    (ofOffers offers).group key = ⟨Offer.group offers key⟩ := by
  induction offers using List.reverseRecOn with
  | nil => rfl
  | append_singleton offers offer ih =>
    have htaken := taken_concat offers offer
    rw [ofOffers_concat]
    split
    · next hjoins =>
      rw [if_pos hjoins] at htaken
      rw [group_update, ih]
      split
      · next hkey =>
        rw [Offer.group, Offer.group, standing_concat_same htaken hkey, arrange_concat]
      · next hkey => rw [Offer.group, Offer.group, standing_concat_other htaken hkey]
    · next hjoins =>
      rw [if_neg hjoins, List.append_nil] at htaken
      rw [ih, Offer.group, Offer.group, standing, standing, htaken]

theorem collected_ofOffers (offers : List Offer) :
    (ofOffers offers).collected = (walk offers).eraseDupsBy fun a b => a.name == b.name := by
  rw [collected, flatMap_groups (nodup_keys_ofOffers offers), keys_ofOffers]
  simp only [group_ofOffers, walk]

/-! ### The chain -/

/-- What stands below the block begins with the default properties. -/
private theorem head?_dropWhile_isOrdinary {chain : Chain} {names : List String}
    (h : defaultPropertiesName ∉ names) :
    ((chain.omitting names).sources.dropWhile Chain.isOrdinary).head? =
      chain.get? defaultPropertiesName := by
  rw [← Chain.get?_omitting h, ← List.find?_not_eq_head?_dropWhile, Chain.get?]
  congr 1
  funext source
  by_cases hname : source.name = defaultPropertiesName <;> simp [Chain.isOrdinary, hname]

/-- The layers of any offers make one block of a chain. It holds each name once, in the order of
the walk through the groups, as the source that is first met there under it. The block takes the
place of all sources of these names; the others stand as they did, the default properties, where
there are any, directly below it. -/
theorem splice_ofOffers (offers : List Offer) {chain : Chain} (hdistinct : chain.Distinct)
    (hnames : (ofOffers offers).contains defaultPropertiesName = false) :
    ((ofOffers offers).splice chain).2 = ((walk offers).map Source.name).eraseDups ∧
      ((ofOffers offers).splice chain).2.Nodup ∧
      ∃ block above below,
        block.map Source.name = ((ofOffers offers).splice chain).2 ∧
        (∀ source ∈ block,
          (walk offers).find? (fun other => other.name = source.name) = some source) ∧
        (chain.omitting (block.map Source.name)).sources = above ++ below ∧
        ((ofOffers offers).splice chain).1.sources = above ++ block ++ below ∧
        defaultPropertiesName ∉ above.map Source.name ∧
        below.head? = chain.get? defaultPropertiesName := by
  let block := (ofOffers offers).collected
  have hnodup : (block.map Source.name).Nodup := nodup_collected_names (nodup_keys_ofOffers offers)
  have heq : block.map Source.name = ((walk offers).map Source.name).eraseDups := by
    rw [← map_eraseDupsBy, ← collected_ofOffers]
  have hdefaults : defaultPropertiesName ∉ block.map Source.name := by
    rw [collected_names (nodup_keys_ofOffers offers), List.mem_eraseDups, List.mem_flatMap]
    rintro ⟨key, -, hmem⟩
    have hthere := (contains_iff (nodup_keys_ofOffers offers)).mpr ⟨key, hmem⟩
    simp [hnames] at hthere
  have hchain : ((ofOffers offers).splice chain).1 = chain.withBlock block :=
    placeAll_eq_withBlock hdistinct hnodup hdefaults
  refine ⟨heq, hnodup, block, _, _, rfl, fun source hsource => ?_,
    List.takeWhile_append_dropWhile.symm, congrArg Chain.sources hchain, ?_,
    head?_dropWhile_isOrdinary hdefaults⟩
  · have hmem : source ∈ (walk offers).eraseDupsBy fun a b => a.name == b.name :=
      collected_ofOffers offers ▸ hsource
    simpa only [beq_eq_decide] using find?_of_mem_eraseDupsBy hmem
  · intro hmem
    obtain ⟨source, hsource, hname⟩ := List.mem_map.mp hmem
    simpa [Chain.isOrdinary, hname] using List.mem_takeWhile_imp hsource

/-- Offers in which one name comes in two groups, and one again when it is there. -/
def crossingOffers : List Offer :=
  [⟨.unscoped, .ofPairs "base" [("k", "1")], .append⟩,
    ⟨.requested "dev", .ofPairs "dev" [("k", "2")], .append⟩,
    ⟨.fallback "dev", .ofPairs "base" [("k", "3")], .append⟩,
    ⟨.unscoped, .ofPairs "late" [("k", "4")], .prependIfAbsent⟩,
    ⟨.unscoped, .ofPairs "dev" [("k", "5")], .prependIfAbsent⟩]

/-- A chain with one of their names above the default properties, and one below. -/
def crossedChain : Chain :=
  ⟨["late", "old", defaultPropertiesName, "dev", "last"].map fun name => .ofPairs name []⟩

theorem splice_crossingOffers :
    crossedChain.Distinct ∧ (ofOffers crossingOffers).contains defaultPropertiesName = false ∧
      ((ofOffers crossingOffers).splice crossedChain).2 = ["dev", "base", "late"] ∧
      ((ofOffers crossingOffers).splice crossedChain).1.names =
        ["old", "dev", "base", "late", defaultPropertiesName, "last"] := by
  have hdistinct : crossedChain.Distinct := by decide +kernel
  have hnames : (ofOffers crossingOffers).contains defaultPropertiesName = false := by
    decide +kernel
  have hwalk : ((walk crossingOffers).map Source.name).eraseDups = ["dev", "base", "late"] := by
    decide +kernel
  obtain ⟨horder, -⟩ := splice_ofOffers crossingOffers hdistinct hnames
  exact ⟨hdistinct, hnames, horder.trans hwalk, by decide +kernel⟩

end Layers

end LayeredConfig
