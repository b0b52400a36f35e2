import LayeredConfig.Proofs.Pairs
import LayeredConfig.Proofs.Placeholder.Cycles
import LayeredConfig.Proofs.Text
import Mathlib.Data.List.FinRange

/-!
# Lists of a key

The indexed entries of a key are looked up one after the other, without a bound. The look-up comes
to an end, since every index that is found takes an entry of its own: the index can be read off the
name of the entry, also off the name of an environment variable, and a key with its closing bracket
is never such a name. A list gives the same items in both of its forms, one text with commas or one
entry for each item.

## Main definitions

* `Source.Scan`: looking up indexed entries until one is missing or cannot be resolved.
* `Source.Answers`: an entry is what a source has for a key.
* `Source.HoldsJoined`, `Source.HoldsIndexed`: the two forms of a list.
* `LeavesPlain`: a resolver that changes only what may hold references.

## Main results

* `Source.index_eq_of_answers`: no entry answers for two indexes.
* `Source.scan_indexed`: the scan ends, and finds what the list of the key is made of.
* `Source.list_encodings_agree`: the scan and the two forms of a list.
-/

namespace LayeredConfig

/-- The resolver leaves a text as it is when no reference can be in it. -/
def LeavesPlain (resolve : String → Except Failure String) : Prop :=
  ∀ text : String, '$' ∉ text.toList → resolve text = .ok text

theorem Placeholder.leavesPlain_resolve (lookup : String → Option String) :
    LeavesPlain (resolve lookup) :=
  fun _ h => resolve_of_isSettled (isSettled_of_notMem h)

/-- The items of a list without their blank ends, and without those that have no text. -/
def Text.withText (items : List String) : List String :=
  (items.map trimmed).filter fun item => !item.isEmpty

namespace Source

variable {source : Source} {resolve : String → Except Failure String} {key : String}
  {items : List String}

/-! ### Keys of indexed entries -/

theorem toList_indexedKey (key : String) (index : Nat) :
    (indexedKey key index).toList = key.toList ++ '[' :: (Nat.toDigits 10 index ++ [']']) := by
  have hopen : "[".toList = ['['] := rfl
  have hclose : "]".toList = [']'] := rfl
  rw [indexedKey, String.toList_append, String.toList_append, String.toList_append, hopen, hclose,
    Nat.toString_eq_ofList_toDigits, String.toList_ofList]
  simp

theorem indexedKey_inj {i j : Nat} (h : indexedKey key i = indexedKey key j) : i = j := by
  have hlist := congrArg String.toList h
  rw [toList_indexedKey, toList_indexedKey, List.append_cancel_left_eq, List.cons.injEq,
    List.append_cancel_right_eq] at hlist
  exact Text.toDigits_inj hlist.2

private theorem toUpper_of_isDigit {c : Char} (h : c.isDigit = true) : c.toUpper = c := by
  simp only [Char.isDigit, Bool.and_eq_true, decide_eq_true_eq] at h
  unfold Char.toUpper
  rw [dif_neg]
  rintro ⟨hlower, -⟩
  have hlow := UInt32.le_iff_toNat_le.mp hlower
  have hhigh := UInt32.le_iff_toNat_le.mp h.2
  simp at hlow hhigh
  omega

private theorem toUpper_ne_bracket {c : Char} (h : c ≠ ']') : c.toUpper ≠ ']' := by
  unfold Char.toUpper
  split
  · next hlower =>
    intro heq
    have hlow := UInt32.le_iff_toNat_le.mp hlower.1
    have hhigh := UInt32.le_iff_toNat_le.mp hlower.2
    have hvalue := congrArg (fun d => d.val.toNat) heq
    simp at hlow hhigh hvalue
    omega
  · exact h

/-- The name of the variable for an indexed entry ends with the index. -/
theorem toList_environmentName_indexedKey (key : String) (index : Nat) :
    (environmentName (indexedKey key index)).toList =
      (environmentName key).toList ++ '_' :: Nat.toDigits 10 index := by
  have hkept : ∀ c ∈ Nat.toDigits 10 index, (c != ']') = true := by
    intro c hc
    simpa using ne_of_mem_of_not_mem hc (Text.notMem_toDigits (by decide) index)
  have hsame : (Nat.toDigits 10 index).map
      (fun c => if c = '.' ∨ c = '-' ∨ c = '[' then '_' else c.toUpper) =
        Nat.toDigits 10 index := by
    refine (List.map_congr_left fun c hc => ?_).trans (List.map_id _)
    have hother (d : Char) (hd : d.isDigit = false) : c ≠ d :=
      ne_of_mem_of_not_mem hc (Text.notMem_toDigits hd index)
    rw [if_neg (by simp [hother])]
    exact toUpper_of_isDigit (Nat.isDigit_of_mem_toDigits (by decide) (by decide) hc)
  rw [environmentName, environmentName, String.toList_ofList, String.toList_ofList,
    toList_indexedKey, List.filter_append, List.filter_cons_of_pos (by decide),
    List.filter_append, List.filter_eq_self.mpr hkept, List.map_append, List.map_cons,
    List.map_append, hsame]
  simp

theorem environmentName_indexedKey_inj {i j : Nat}
    (h : environmentName (indexedKey key i) = environmentName (indexedKey key j)) : i = j := by
  have hlist := congrArg String.toList h
  rw [toList_environmentName_indexedKey, toList_environmentName_indexedKey,
    List.append_cancel_left_eq, List.cons.injEq] at hlist
  exact Text.toDigits_inj hlist.2

/-- No indexed entry bears the name of a variable: its closing bracket is in no such name. -/
theorem indexedKey_ne_environmentName (key other : String) (index : Nat) :
    indexedKey key index ≠ environmentName other := by
  intro h
  have hbracket : ']' ∈ (environmentName other).toList := by
    rw [← h, toList_indexedKey]
    simp
  rw [environmentName, String.toList_ofList, List.mem_map] at hbracket
  obtain ⟨c, hc, hmapped⟩ := hbracket
  have hne : c ≠ ']' := by simpa using (List.mem_filter.mp hc).2
  split at hmapped
  · exact absurd hmapped (by decide)
  · exact toUpper_ne_bracket hne hmapped

/-! ### The entry behind a key -/

/-- The entry is one that the source can have for the key: it stands under the key itself or, among
environment variables, under the variable's name for it. -/
def Answers (source : Source) (entry : String × Property) (key : String) : Prop :=
  entry ∈ source.entries ∧
    (entry.1 = key ∨ source.kind = .systemEnvironment ∧ entry.1 = environmentName key)

theorem exists_answers {property : Property} (h : source.get? key = some property) :
    ∃ entry, source.Answers entry key ∧ entry.2 = property := by
  rw [get?] at h
  split at h
  · next found hfound =>
    obtain rfl := Option.some.inj h
    exact ⟨(key, found), ⟨Pairs.mem_of_get? hfound, .inl rfl⟩, rfl⟩
  · next hkind => exact ⟨(environmentName key, property),
      ⟨Pairs.mem_of_get? h, .inr ⟨hkind, rfl⟩⟩, rfl⟩
  · cases h

/-- No entry answers for two indexes. -/
theorem index_eq_of_answers {entry : String × Property} {i j : Nat}
    (hi : source.Answers entry (indexedKey key i)) (hj : source.Answers entry (indexedKey key j)) :
    i = j := by
  obtain ⟨-, hi | ⟨-, hi⟩⟩ := hi <;> obtain ⟨-, hj | ⟨-, hj⟩⟩ := hj
  · exact indexedKey_inj (hi.symm.trans hj)
  · exact absurd (hi.symm.trans hj) (indexedKey_ne_environmentName _ _ _)
  · exact absurd (hj.symm.trans hi) (indexedKey_ne_environmentName _ _ _)
  · exact environmentName_indexedKey_inj (hi.symm.trans hj)

/-- A source has no more indexed entries than entries. -/
theorem le_size_of_isSome {count : Nat}
    (h : ∀ index < count, (source.get? (indexedKey key index)).isSome = true) :
    count ≤ source.size := by
  have hanswer : ∀ index : Fin count, ∃ entry, source.Answers entry (indexedKey key index) := by
    intro index
    obtain ⟨property, hproperty⟩ := Option.isSome_iff_exists.mp (h index index.isLt)
    obtain ⟨entry, hentry, -⟩ := exists_answers hproperty
    exact ⟨entry, hentry⟩
  choose entry hentry using hanswer
  have hinj : Function.Injective entry := fun i j hij =>
    Fin.ext (index_eq_of_answers (hentry i) (hij ▸ hentry j))
  have hnodup : (List.ofFn entry).Nodup := List.nodup_ofFn.mpr hinj
  have hsubset : List.ofFn entry ⊆ source.entries := by
    rw [List.subset_def, List.forall_mem_ofFn_iff]
    exact fun index => (hentry index).1
  simpa [size] using hnodup.length_le_of_subset hsubset

/-! ### Indexed entries, one after the other -/

/-- The indexed entries from the index `start` on, up to the first that is missing, but no more
than `count`. -/
def indexedFrom (source : Source) (key : String) (start : Nat) : Nat → List Property
  | 0 => []
  | count + 1 =>
    match source.get? (indexedKey key start) with
    | some property => property :: indexedFrom source key (start + 1) count
    | none => []

theorem indexed_eq_indexedFrom (source : Source) (key : String) :
    source.indexed key = source.indexedFrom key 0 source.size := by
  suffices h : ∀ start count, (((List.range' start count).map fun index =>
      source.get? (indexedKey key index)).takeWhile Option.isSome).filterMap id =
        source.indexedFrom key start count by
    rw [indexed, List.range_eq_range', h]
  intro start count
  induction count generalizing start with
  | zero => rfl
  | succ count ih =>
    rw [List.range'_succ, List.map_cons, List.takeWhile_cons, indexedFrom]
    split
    · next hsome =>
      obtain ⟨property, hproperty⟩ := Option.isSome_iff_exists.mp hsome
      rw [hproperty, ← ih]
      rfl
    · next hnone =>
      rw [Option.not_isSome_iff_eq_none.mp hnone]
      rfl

/-- The scan of the indexed entries of a key: from the items that were found so far, it ends after
some further hits with a result. Each hit is the look-up of the entry whose index is the number of
items; the scan ends at an entry that is missing or cannot be resolved. -/
inductive Scan (source : Source) (resolve : String → Except Failure String) (key : String) :
    List String → Nat → Except Failure (List String) → Prop
  | missing {items : List String} (h : source.get? (indexedKey key items.length) = none) :
    Scan source resolve key items 0 (.ok items)
  | refused {items : List String} {property : Property} {failure : Failure}
    (h : source.get? (indexedKey key items.length) = some property)
    (hrefused : resolve property.value = .error failure) :
    Scan source resolve key items 1 (.error failure)
  | taken {items : List String} {property : Property} {item : String} {hits : Nat}
    {result : Except Failure (List String)}
    (h : source.get? (indexedKey key items.length) = some property)
    (hitem : resolve property.value = .ok item)
    (hrest : Scan source resolve key (items ++ [item]) hits result) :
    Scan source resolve key items (hits + 1) result

/-- A scan has one outcome. -/
theorem Scan.unique {hits hits' : Nat} {result result' : Except Failure (List String)}
    (h : source.Scan resolve key items hits result)
    (h' : source.Scan resolve key items hits' result') : hits' = hits ∧ result' = result := by
  induction h generalizing hits' with
  | missing hmissing =>
    rcases h' with - | ⟨hfound, -⟩ | ⟨hfound, -, -⟩
    · exact ⟨rfl, rfl⟩
    · simp [hmissing] at hfound
    · simp [hmissing] at hfound
  | refused hfound hrefused =>
    rcases h' with hmissing | ⟨hsame, hsame'⟩ | ⟨hsame, hitem, -⟩
    · simp [hfound] at hmissing
    · obtain rfl := Option.some.inj (hfound.symm.trans hsame)
      obtain rfl := Except.error.inj (hrefused.symm.trans hsame')
      exact ⟨rfl, rfl⟩
    · obtain rfl := Option.some.inj (hfound.symm.trans hsame)
      simp [hrefused] at hitem
  | taken hfound hitem _ ih =>
    rcases h' with hmissing | ⟨hsame, hrefused⟩ | ⟨hsame, hsame', hrest⟩
    · simp [hfound] at hmissing
    · obtain rfl := Option.some.inj (hfound.symm.trans hsame)
      simp [hitem] at hrefused
    · obtain rfl := Option.some.inj (hfound.symm.trans hsame)
      obtain rfl := Except.ok.inj (hitem.symm.trans hsame')
      obtain ⟨rfl, rfl⟩ := ih hrest
      exact ⟨rfl, rfl⟩

/-- A scan that has found an entry for every index so far ends, with what is left of the entries. -/
theorem exists_scan (source : Source) (resolve : String → Except Failure String) (key : String)
    {left : Nat} (hleft : items.length + left = source.size)
    (hfound : ∀ index < items.length, (source.get? (indexedKey key index)).isSome = true) :
    ∃ hits ≤ left, source.Scan resolve key items hits
      (((source.indexedFrom key items.length left).mapM fun property =>
        resolve property.value).map (items ++ ·)) := by
  induction left generalizing items with
  | zero =>
    have hnone : source.get? (indexedKey key items.length) = none := by
      rw [← Option.not_isSome_iff_eq_none]
      intro hsome
      have hall : ∀ index < items.length + 1,
          (source.get? (indexedKey key index)).isSome = true := by
        rw [Nat.forall_lt_succ_right]
        exact ⟨hfound, hsome⟩
      have hle := le_size_of_isSome hall
      omega
    refine ⟨0, le_rfl, ?_⟩
    simpa [indexedFrom, pure, Except.pure, Except.map] using Scan.missing hnone
  | succ left ih =>
    rw [indexedFrom]
    cases hnext : source.get? (indexedKey key items.length) with
    | none =>
      refine ⟨0, Nat.zero_le _, ?_⟩
      simpa [pure, Except.pure, Except.map] using Scan.missing hnext
    | some property =>
      cases hitem : resolve property.value with
      | error failure =>
        refine ⟨1, by omega, ?_⟩
        simpa [hitem, bind, Except.bind, Except.map] using Scan.refused hnext hitem
      | ok item =>
        have hlength : (items ++ [item]).length = items.length + 1 := by simp
        have hall : ∀ index < items.length + 1,
            (source.get? (indexedKey key index)).isSome = true := by
          rw [Nat.forall_lt_succ_right, hnext]
          exact ⟨hfound, rfl⟩
        have hrest : (items ++ [item]).length + left = source.size := by omega
        obtain ⟨hits, hle, hscan⟩ := ih hrest (hlength ▸ hall)
        refine ⟨hits + 1, by omega, ?_⟩
        convert Scan.taken hnext hitem hscan using 1
        rw [hlength, List.mapM_cons, hitem]
        cases (source.indexedFrom key (items.length + 1) left).mapM fun property =>
          resolve property.value with
        | error failure => rfl
        | ok rest => exact congrArg Except.ok (List.append_cons items item rest)

/-- The scan of the indexed entries ends after at most as many hits as there are entries, and it has
no other outcome. Where the source has no value for the key itself, the list of the key is what the
scan finds. -/
theorem scan_indexed (source : Source) (resolve : String → Except Failure String) (key : String) :
    ∃ hits ≤ source.size, ∃ result,
      (∀ hits' result', source.Scan resolve key [] hits' result' ↔
        hits' = hits ∧ result' = result) ∧
      (source.get? key = none → source.list? resolve key = result.map fun items =>
        if items.isEmpty then none else some (Text.withText items)) := by
  have hstart : ([] : List String).length + source.size = source.size := Nat.zero_add _
  obtain ⟨hits, hle, hscan⟩ := exists_scan source resolve key hstart (by simp)
  refine ⟨hits, hle, _, fun hits' result' => ⟨hscan.unique, ?_⟩, fun hkey => ?_⟩
  · rintro ⟨rfl, rfl⟩
    exact hscan
  · rw [list?, hkey, indexed_eq_indexedFrom]
    dsimp only [List.length_nil]
    cases (source.indexedFrom key 0 source.size).mapM fun property => resolve property.value with
    | error failure => rfl
    | ok items =>
      by_cases hempty : items.isEmpty = true
      · simp [bind, Except.bind, Except.map, hempty, pure, Except.pure]
      · simp [bind, Except.bind, Except.map, hempty, pure, Except.pure, Text.withText]

/-! ### The two forms of a list -/

/-- The source has the items as one value of the key, with commas between them. -/
def HoldsJoined (source : Source) (key : String) (items : List String) : Prop :=
  (source.get? key).map Property.value = some (",".intercalate items)

/-- The source has the items as entries of their own, without a value of the key itself, and there
is no entry for the index after the last. -/
def HoldsIndexed (source : Source) (key : String) (items : List String) : Prop :=
  source.get? key = none ∧ ∀ index ≤ items.length,
    (source.get? (indexedKey key index)).map Property.value = items[index]?

theorem HoldsIndexed.value_indexed (h : source.HoldsIndexed key items) :
    (source.indexed key).map Property.value = items := by
  suffices hfrom : ∀ (start count : Nat) (items : List String), items.length ≤ count →
      (∀ index ≤ items.length, (source.get? (indexedKey key (start + index))).map Property.value =
        items[index]?) → (source.indexedFrom key start count).map Property.value = items by
    rw [indexed_eq_indexedFrom]
    have hsome : ∀ index < items.length,
        (source.get? (indexedKey key index)).isSome = true := by
      intro index hindex
      rw [← Option.isSome_map, h.2 index hindex.le]
      simpa using hindex
    exact hfrom 0 source.size items (le_size_of_isSome hsome) fun index hindex => by
      rw [Nat.zero_add]
      exact h.2 index hindex
  intro start count items hle hvalues
  induction items generalizing start count with
  | nil =>
    have hmissing : source.get? (indexedKey key start) = none := by
      simpa using hvalues 0 le_rfl
    cases count with
    | zero => rfl
    | succ count => simp [indexedFrom, hmissing]
  | cons item items ih =>
    obtain ⟨count, rfl⟩ := Nat.exists_eq_add_of_lt (Nat.lt_of_lt_of_le (Nat.succ_pos _) hle)
    have hfirst := hvalues 0 (Nat.zero_le _)
    rw [List.getElem?_cons_zero] at hfirst
    obtain ⟨property, hproperty, rfl⟩ := Option.map_eq_some_iff.mp hfirst
    rw [Nat.add_zero] at hproperty
    rw [Nat.zero_add, indexedFrom, hproperty, List.map_cons]
    congr 1
    refine ih (start + 1) count (by simpa using hle) fun index hindex => ?_
    have hnext := hvalues (index + 1) (by simpa using hindex)
    rw [List.getElem?_cons_succ] at hnext
    rw [← hnext, Nat.add_right_comm, Nat.add_assoc]

private theorem mapM_of_leavesPlain (hresolve : LeavesPlain resolve)
    (hitems : ∀ item ∈ items, '$' ∉ item.toList) : items.mapM resolve = .ok items := by
  induction items with
  | nil => rfl
  | cons item items ih =>
    rw [List.forall_mem_cons] at hitems
    rw [List.mapM_cons, hresolve item hitems.1, ih hitems.2]
    rfl

theorem HoldsIndexed.list?_eq (h : source.HoldsIndexed key items) (hsome : items ≠ [])
    (hresolve : LeavesPlain resolve) (hitems : ∀ item ∈ items, '$' ∉ item.toList) :
    source.list? resolve key = .ok (some (Text.withText items)) := by
  have hmapM : ((source.indexed key).mapM fun property => resolve property.value) = .ok items := by
    rw [← mapM_of_leavesPlain hresolve hitems, ← h.value_indexed, List.mapM_map]
    rfl
  rw [list?, h.1]
  simp only [hmapM]
  exact if_neg (by simpa using hsome)

/-- The items of a text with commas are those that were joined. -/
theorem splitList_intercalate (hsome : items ≠ []) (hitems : ∀ item ∈ items, ',' ∉ item.toList) :
    Text.splitList (",".intercalate items) = Text.withText items := by
  have hcomma : ",".toList = [','] := rfl
  have hsplit : (",".intercalate items).toList.splitOn ',' = items.map String.toList := by
    rw [String.toList_intercalate, hcomma]
    exact List.splitOn_intercalate ',' (List.forall_mem_map.mpr hitems) (by simpa using hsome)
  rw [Text.splitList, hsplit, Text.withText, List.map_map, List.filter_map, List.filter_map,
    List.map_map]
  congr 1
  refine List.filter_congr fun item _ => congrArg not ?_
  change (Text.trim item.toList).isEmpty = (Text.trimmed item).isEmpty
  rw [Text.trimmed, Bool.eq_iff_iff, List.isEmpty_iff, String.isEmpty_iff,
    String.ofList_eq_empty_iff]

theorem HoldsJoined.list?_eq (h : source.HoldsJoined key items) (hsome : items ≠ [])
    (hresolve : LeavesPlain resolve)
    (hitems : ∀ item ∈ items, ',' ∉ item.toList ∧ '$' ∉ item.toList) :
    source.list? resolve key = .ok (some (Text.withText items)) := by
  obtain ⟨property, hproperty, hvalue⟩ := Option.map_eq_some_iff.mp h
  have hdollar : '$' ∉ property.value.toList := by
    have hcomma : ",".toList = [','] := rfl
    rw [hvalue, String.toList_intercalate, hcomma, Text.mem_intercalate_iff]
    rintro (⟨heq, -⟩ | ⟨chars, hchars, hmem⟩)
    · exact absurd heq (by decide)
    · obtain ⟨item, hitem, rfl⟩ := List.mem_map.mp hchars
      exact (hitems item hitem).2 hmem
  rw [list?, hproperty]
  simp only [hresolve _ hdollar]
  rw [hvalue, ← splitList_intercalate hsome fun item hitem => (hitems item hitem).1]
  rfl

theorem firstList?_cons_of_some {others : List Source} {found : List String}
    (h : source.list? resolve key = .ok (some found)) :
    firstList? (source :: others) resolve key = .ok (some found) := by
  rw [firstList?, h]
  rfl

/-- Lists are read in a bounded number of look-ups, and alike in both forms. The scan of indexed
entries ends, in any source and with any resolver, after at most as many hits as there are entries,
since no entry answers for two indexes. Items without a comma and a dollar sign give the same list,
as one value or as indexed entries of the first source, to any resolver that changes only what may
hold references: the trimmed items that have text, in their order. -/
theorem list_encodings_agree (key : String) :
    (∀ (source : Source) (resolve : String → Except Failure String),
      ∃ hits ≤ source.size, ∃ result,
        (∀ hits' result', source.Scan resolve key [] hits' result' ↔
          hits' = hits ∧ result' = result) ∧
        (source.get? key = none → source.list? resolve key = result.map fun items =>
          if items.isEmpty then none else some (Text.withText items))) ∧
    (∀ (source : Source) (entry : String × Property) (i j : Nat),
      source.Answers entry (indexedKey key i) → source.Answers entry (indexedKey key j) → i = j) ∧
    ∀ items : List String, items ≠ [] →
      (∀ item ∈ items, ',' ∉ item.toList ∧ '$' ∉ item.toList) →
      ∀ (joined indexed : Source) (others : List Source)
        (resolve : String → Except Failure String), LeavesPlain resolve →
        joined.HoldsJoined key items → indexed.HoldsIndexed key items →
        firstList? (joined :: others) resolve key = .ok (some (Text.withText items)) ∧
        firstList? (indexed :: others) resolve key = .ok (some (Text.withText items)) := by
  refine ⟨fun source resolve => scan_indexed source resolve key,
    fun source entry i j => index_eq_of_answers, ?_⟩
  intro items hsome hitems joined indexed others resolve hresolve hjoined hindexed
  exact ⟨firstList?_cons_of_some (hjoined.list?_eq hsome hresolve hitems),
    firstList?_cons_of_some
      (hindexed.list?_eq hsome hresolve fun item hitem => (hitems item hitem).2)⟩

/-- A list with blanks around its items, one of which has no text. -/
def spacedItems : List String := [" dev", "", "cloud "]

/-- The items as one value. -/
def spacedJoined : Source :=
  .ofPairs "commandLineArgs" [("profiles.active", " dev,,cloud ")]

/-- The items as entries, among environment variables. -/
def spacedIndexed : Source :=
  .ofVariables
    [("PROFILES_ACTIVE_0", " dev"), ("PROFILES_ACTIVE_2", "cloud "), ("PROFILES_ACTIVE_1", "")]

theorem list_encodings_agree_spaced :
    let resolve := Environment.resolve {}
    (∃ hits ≤ spacedIndexed.size,
      spacedIndexed.Scan resolve "profiles.active" [] hits (.ok spacedItems)) ∧
    firstList? [spacedJoined] resolve "profiles.active" = .ok (some ["dev", "cloud"]) ∧
    firstList? [spacedIndexed] resolve "profiles.active" = .ok (some ["dev", "cloud"]) := by
  intro resolve
  have hplain : LeavesPlain resolve := Placeholder.leavesPlain_resolve _
  have hjoined : spacedJoined.HoldsJoined "profiles.active" spacedItems := by
    rw [HoldsJoined]
    decide +kernel
  have hindexed : spacedIndexed.HoldsIndexed "profiles.active" spacedItems :=
    ⟨by decide +kernel, by decide +kernel⟩
  have hitems : Text.withText spacedItems = ["dev", "cloud"] := by decide +kernel
  have hfirst : spacedIndexed.get? (indexedKey "profiles.active" 0) = some ⟨" dev", none⟩ := by
    decide +kernel
  have hsecond : spacedIndexed.get? (indexedKey "profiles.active" 1) = some ⟨"", none⟩ := by
    decide +kernel
  have hthird : spacedIndexed.get? (indexedKey "profiles.active" 2) = some ⟨"cloud ", none⟩ := by
    decide +kernel
  have hlast : spacedIndexed.get? (indexedKey "profiles.active" 3) = none := by decide +kernel
  have hfound : spacedIndexed.Scan resolve "profiles.active" [] 3 (.ok spacedItems) :=
    .taken hfirst (hplain " dev" (by decide)) (.taken hsecond (hplain "" (by decide))
      (.taken hthird (hplain "cloud " (by decide)) (.missing hlast)))
  obtain ⟨hscan, -, hforms⟩ := list_encodings_agree "profiles.active"
  obtain ⟨hits, hle, result, honly, -⟩ := hscan spacedIndexed resolve
  obtain ⟨rfl, -⟩ := (honly _ _).mp hfound
  have hsame := hforms spacedItems (by decide) (by decide) spacedJoined spacedIndexed [] resolve
    hplain hjoined hindexed
  rw [hitems] at hsame
  exact ⟨⟨3, hle, hfound⟩, hsame⟩

end Source

end LayeredConfig
