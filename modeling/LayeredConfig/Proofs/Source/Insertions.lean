import LayeredConfig.Proofs.Pairs
import LayeredConfig.Source.Indexed
import Mathlib.Data.Fin.Basic
import Mathlib.Data.List.Nodup

/-!
# Sources keep the order of insertion

A source whose properties were inserted one after the other lists every key once, where it was
inserted first, with the property that was inserted last. The index leads exactly these keys to
their places. Taking keys away inserts the other entries anew, which leaves their order and what
is found under them. So the array with its index is the same source as the plain list of entries.

## Main definitions

* `Source.Indexed.keys`: the keys in the order of the entries.
* `Source.Indexed.IsMapOf`: a source is what results from some insertions.

## Main results

* `Source.Indexed.get?_toSource`, `Source.Indexed.toSource_insert`,
  `Source.Indexed.toSource_without`: a source with an index does what the list of its entries does.
* `Source.Indexed.isMapOf_insertAll_empty`: the entries, the index and the values after insertions.
* `Source.Indexed.insertions_keep_order`: all of this, and what is left without some keys.
-/

namespace LayeredConfig.Source.Indexed

/-- The keys in the order of the entries. -/
def keys (source : Indexed) : List String :=
  source.entries.toList.map Prod.fst

variable {source : Indexed} {key : String}

/-! ### Places -/

theorem getElem?_keys (place : Nat) :
    source.keys[place]? = source.entries[place]?.map Prod.fst := by
  rw [keys, List.getElem?_map, Array.getElem?_toList]

/-- The index leads a key to a place iff the key stands there. -/
theorem get?_index_iff {place : Nat} :
    Pairs.get? key source.index = some place ↔ source.keys[place]? = some key := by
  rw [getElem?_keys]
  exact source.isIndex key place

theorem place?_eq_some_iff {place : Fin source.entries.size} :
    source.place? key = some place ↔ source.keys[place.val]? = some key := by
  rw [← get?_index_iff, get?_index_eq]
  exact (Option.map_injective Fin.val_injective).eq_iff.symm

/-- At the place of a key stands its entry. -/
theorem getElem?_of_place? {place : Fin source.entries.size} (h : source.place? key = some place) :
    ∃ property, source.entries[place.val]? = some (key, property) := by
  have hkey := place?_eq_some_iff.mp h
  rw [getElem?_keys] at hkey
  obtain ⟨⟨_, property⟩, hentry, rfl⟩ := Option.map_eq_some_iff.mp hkey
  exact ⟨property, hentry⟩

/-- A key that stands nowhere has no place. -/
theorem place?_eq_none_iff : source.place? key = none ↔ key ∉ source.keys := by
  rw [← Option.map_eq_none_iff (f := Fin.val), ← get?_index_eq, Option.eq_none_iff_forall_ne_some,
    List.mem_iff_getElem?, not_exists]
  exact forall_congr' fun place => not_congr get?_index_iff

/-- Every key stands once. -/
theorem nodup_keys (source : Indexed) : source.keys.Nodup := by
  rw [List.nodup_iff_getElem?_ne_getElem?]
  intro i j hlt hj heq
  have hkey := List.getElem?_eq_getElem hj
  have hfirst := get?_index_iff.mpr (heq.trans hkey)
  exact hlt.ne (Option.some.inj (hfirst.symm.trans (get?_index_iff.mpr hkey)))

/-! ### The list of entries -/

/-- What the index finds is what the list of entries has for the key. -/
theorem find?_eq (source : Indexed) (key : String) :
    source.find? key = Pairs.get? key source.entries.toList := by
  rw [find?]
  cases hplace : source.place? key with
  | none => exact (Pairs.get?_eq_none_iff.mpr (place?_eq_none_iff.mp hplace)).symm
  | some place =>
    obtain ⟨property, hentry⟩ := getElem?_of_place? hplace
    obtain ⟨_, hget⟩ := Array.getElem?_eq_some_iff.mp hentry
    rw [Option.map_some, Fin.getElem_fin, hget]
    exact (Pairs.get?_of_mem source.nodup_keys
      (Array.mem_toList_iff.mpr (Array.mem_of_getElem? hentry))).symm

theorem get?_toSource (source : Indexed) (key : String) :
    source.toSource.get? key = source.get? key := by
  rw [get?, find?_eq, find?_eq]
  rfl

theorem toSource_empty (name : String) (kind : SourceKind) :
    (empty name kind).toSource = { name, kind } :=
  rfl

theorem toSource_insert (source : Indexed) (key : String) (property : Property) :
    (source.insert key property).toSource = source.toSource.insert key property := by
  unfold insert
  split
  · next place hplace =>
    obtain ⟨old, hentry⟩ := getElem?_of_place? hplace
    obtain ⟨_, hget⟩ := Array.getElem?_eq_some_iff.mp hentry
    have hput : Pairs.put key property source.entries.toList =
        source.entries.toList.set place (key, property) :=
      Pairs.put_of_getElem? source.nodup_keys (place?_eq_some_iff.mp hplace)
    simp only [toSource, Source.insert, hput, Array.toList_set, Fin.getElem_fin, hget]
  · next hplace =>
    have hput : Pairs.put key property source.entries.toList =
        source.entries.toList ++ [(key, property)] :=
      Pairs.put_of_notMem (place?_eq_none_iff.mp hplace)
    simp only [toSource, Source.insert, hput, Array.toList_push]

theorem toSource_insertAll (source : Indexed) (pairs : List (String × Property)) :
    (source.insertAll pairs).toSource =
      pairs.foldl (fun source pair => source.insert pair.1 pair.2) source.toSource := by
  induction pairs generalizing source with
  | nil => rfl
  | cons pair pairs ih =>
    rw [List.foldl_cons, ← toSource_insert]
    exact ih _

/-- What is inserted into a source without entries is set one after the other. -/
theorem toSource_insertAll_empty (name : String) (kind : SourceKind)
    (pairs : List (String × Property)) :
    ((empty name kind).insertAll pairs).toSource =
      { name, kind, entries := Pairs.ofList pairs } := by
  rw [toSource_insertAll, toSource_empty]
  exact List.foldl_hom (fun entries => ({ name, kind, entries } : Source)) fun _ _ => rfl

/-- The entries of the other keys are inserted into a source without entries. -/
theorem without_eq (source : Indexed) (keys : List String) :
    source.without keys = (empty source.name source.kind).insertAll
      (source.entries.toList.filter fun entry => !keys.contains entry.1) := by
  rw [insertAll, List.foldl_filter, without, ← Array.foldl_toList]
  congr 1
  funext kept entry
  cases keys.contains entry.1 <;> rfl

theorem toSource_without (source : Indexed) (keys : List String) :
    (source.without keys).toSource = source.toSource.without keys := by
  rw [without_eq, toSource_insertAll_empty, Pairs.ofList_of_nodup]
  · rfl
  · exact source.nodup_keys.sublist (List.filter_sublist.map Prod.fst)

/-! ### Histories -/

/-- The source is the map that results when the pairs are inserted one after the other. -/
structure IsMapOf (source : Indexed) (pairs : List (String × Property)) : Prop where
  /-- Every key stands once, in order of its first insertion. -/
  keys_eq : source.keys = (pairs.map Prod.fst).eraseDups
  /-- The entries hold what was inserted last. -/
  mem_entries_iff : ∀ key property,
    (key, property) ∈ source.entries ↔ Pairs.IsLast pairs key property
  /-- The index leads exactly these keys to their places. -/
  index_iff : ∀ key place, Pairs.get? key source.index = some place ↔
    ∃ h : place < source.entries.size, source.entries[place].1 = key
  /-- A key has the property that was inserted last. -/
  get?_iff : ∀ key property, source.get? key = some property ↔ Pairs.IsLast pairs key property
  /-- A key that was never inserted has none. -/
  get?_eq_none_iff : ∀ key, source.get? key = none ↔ key ∉ pairs.map Prod.fst

theorem get?_of_kind (h : source.kind = .plain) :
    source.get? key = Pairs.get? key source.entries.toList := by
  rw [get?, find?_eq, h]
  cases Pairs.get? key source.entries.toList <;> rfl

/-- Insertions into a source without entries make it the map of what is inserted. -/
theorem isMapOf_insertAll_empty (name : String) (pairs : List (String × Property)) :
    ((empty name).insertAll pairs).IsMapOf pairs := by
  have hsource := toSource_insertAll_empty name .plain pairs
  have hentries : ((empty name).insertAll pairs).entries.toList = Pairs.ofList pairs :=
    congrArg Source.entries hsource
  have hkeys : ((empty name).insertAll pairs).keys = (pairs.map Prod.fst).eraseDups := by
    rw [keys, hentries, Pairs.keys_ofList]
  have hget (key : String) :
      ((empty name).insertAll pairs).get? key = Pairs.get? key (Pairs.ofList pairs) := by
    rw [get?_of_kind (congrArg Source.kind hsource), hentries]
  refine ⟨hkeys, fun key property => ?_, fun key place => ?_, fun key property => ?_,
    fun key => ?_⟩
  · rw [← Pairs.get?_ofList_iff, ← Array.mem_toList_iff, hentries]
    exact ⟨Pairs.get?_of_mem (hentries ▸ nodup_keys _), Pairs.mem_of_get?⟩
  · rw [get?_index_iff, getElem?_keys, Option.map_eq_some_iff]
    constructor
    · rintro ⟨entry, hentry, rfl⟩
      obtain ⟨hplace, rfl⟩ := Array.getElem?_eq_some_iff.mp hentry
      exact ⟨hplace, rfl⟩
    · rintro ⟨hplace, rfl⟩
      exact ⟨_, Array.getElem?_eq_getElem hplace, rfl⟩
  · rw [hget, Pairs.get?_ofList_iff]
  · rw [hget, Pairs.get?_eq_none_iff, Pairs.keys_ofList, List.mem_eraseDups]

/-- A source is a map in order of insertion. Insertions leave every key once, where it was inserted
first, with what was inserted last, and the index leads to it; the list of entries does the same.
Without some keys, the source keeps its name, the other entries in their order and what is found
under them, and is such a map again. -/
theorem insertions_keep_order (name : String) (pairs : List (String × Property)) :
    let source := (empty name).insertAll pairs
    source.IsMapOf pairs ∧
      source.toSource = pairs.foldl (fun source pair => source.insert pair.1 pair.2) { name } ∧
      (∀ key, source.toSource.get? key = source.get? key) ∧
      ∀ keys, let kept := source.entries.toList.filter fun entry => !keys.contains entry.1
        (source.without keys).name = name ∧ (source.without keys).entries.toList = kept ∧
        (source.without keys).IsMapOf kept ∧
        (source.without keys).toSource = source.toSource.without keys ∧
        ∀ key, (source.without keys).get? key = if key ∈ keys then none else source.get? key := by
  intro source
  have hsource : source.toSource = { name, entries := Pairs.ofList pairs } :=
    toSource_insertAll_empty name .plain pairs
  have hname : source.name = name := congrArg Source.name hsource
  have hkind : source.kind = .plain := congrArg Source.kind hsource
  refine ⟨isMapOf_insertAll_empty name pairs, toSource_insertAll _ pairs, get?_toSource source, ?_⟩
  intro keys kept
  have hwithout : source.without keys = (empty name).insertAll kept := by
    rw [without_eq, hname, hkind]
  have hrest := toSource_without source keys
  have hentries : (source.without keys).entries.toList = kept := congrArg Source.entries hrest
  refine ⟨(congrArg Source.name hrest).trans hname, hentries, ?_, hrest, fun key => ?_⟩
  · rw [hwithout]
    exact isMapOf_insertAll_empty name kept
  · rw [get?_of_kind ((congrArg Source.kind hrest).trans hkind), get?_of_kind hkind, hentries]
    exact Pairs.get?_filter keys

/-- A key that is set again keeps its place, and one that was taken away comes back at the end. -/
example :
    let source := (empty "s").insertAll [("a", ⟨"1", none⟩), ("b", ⟨"2", none⟩), ("a", ⟨"3", none⟩)]
    source.toSource.entries = [("a", ⟨"3", none⟩), ("b", ⟨"2", none⟩)] ∧
      ((source.without ["a"]).insert "a" ⟨"4", none⟩).toSource.entries =
        [("b", ⟨"2", none⟩), ("a", ⟨"4", none⟩)] := by
  decide +kernel

end LayeredConfig.Source.Indexed
