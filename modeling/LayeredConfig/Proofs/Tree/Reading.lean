import LayeredConfig.Proofs.Tree.Sources

/-!
# The values of JSON texts

The reader of JSON texts sets the fields of an object one after another, so that no object it reads
has a key twice. What holds of the leaves of values with distinct keys therefore holds of every JSON
file: its source keeps them all, as long as the names of fields are plain.

## Main results

* `Json.hasDistinctKeys_of_read`: no object of a JSON text has a key twice.
* `Json.isKeptBy_of_load`: the source of a JSON file keeps the leaves of its value.
-/

namespace LayeredConfig.Json

open Text (Reader)

/-- What a reader takes off a text has no key twice. -/
def ReadsDistinct (item : Reader Tree) : Prop :=
  ∀ text found rest, item text = some (found, rest) → found.hasDistinctKeys = true

variable {item : Reader Tree}

theorem hasDistinctKeys_of_items (hitem : ReadsDistinct item) {limit : Nat} {text rest : List Char}
    {found : List Tree} (h : items item limit text = some (found, rest)) :
    ∀ tree ∈ found, tree.hasDistinctKeys = true := by
  induction limit generalizing text found with
  | zero => cases h
  | succ limit ih =>
    rw [items] at h
    obtain ⟨⟨first, after⟩, hfirst, h⟩ := Option.bind_eq_some_iff.mp h
    have hdistinct := hitem _ _ _ hfirst
    dsimp only at h
    split at h
    · obtain ⟨⟨others, _⟩, hothers, h⟩ := Option.bind_eq_some_iff.mp h
      cases h
      exact List.forall_mem_cons.mpr ⟨hdistinct, ih hothers⟩
    · cases h
      exact List.forall_mem_singleton.mpr hdistinct
    · cases h

theorem hasDistinctKeys_of_fields (hitem : ReadsDistinct item) {limit : Nat}
    {text rest : List Char} {found : List (String × Tree)}
    (h : fields item limit text = some (found, rest)) :
    ∀ field ∈ found, field.2.hasDistinctKeys = true := by
  induction limit generalizing text found with
  | zero => cases h
  | succ limit ih =>
    rw [fields] at h
    dsimp only at h
    split at h
    · obtain ⟨⟨key, afterKey⟩, -, h⟩ := Option.bind_eq_some_iff.mp h
      dsimp only at h
      split at h
      · obtain ⟨⟨value, afterValue⟩, hvalue, h⟩ := Option.bind_eq_some_iff.mp h
        have hdistinct := hitem _ _ _ hvalue
        dsimp only at h
        split at h
        · obtain ⟨⟨others, _⟩, hothers, h⟩ := Option.bind_eq_some_iff.mp h
          cases h
          exact List.forall_mem_cons.mpr ⟨hdistinct, ih hothers⟩
        · cases h
          exact List.forall_mem_singleton.mpr hdistinct
        · cases h
      · cases h
    · cases h

theorem readsDistinct_container (hitem : ReadsDistinct item) (isList : Bool) :
    ReadsDistinct (container isList item) := by
  intro text found rest h
  unfold container at h
  split at h
  · cases h
    rfl
  · obtain ⟨⟨trees, _⟩, htrees, h⟩ := Option.map_eq_some_iff.mp h
    cases h
    exact Tree.everyTable_list_iff.mpr (hasDistinctKeys_of_items hitem htrees)
  · cases h
    rfl
  · obtain ⟨⟨pairs, _⟩, hpairs, h⟩ := Option.map_eq_some_iff.mp h
    cases h
    obtain ⟨hnodup, hfrom⟩ := Pairs.ofList_spec pairs
    refine Tree.everyTable_table_iff.mpr ⟨by simpa using hnodup, fun field hfield => ?_⟩
    exact hasDistinctKeys_of_fields hitem hpairs field (hfrom field hfield)

theorem hasDistinctKeys_of_integer {negative : Bool} {digits : Digits} {found : Tree}
    (h : integer negative digits = some found) : found.hasDistinctKeys = true := by
  unfold integer at h
  split at h
  · obtain ⟨x, -, rfl⟩ := Option.map_eq_some_iff.mp h
    rfl
  · split at h
    · dsimp only at h
      split at h
      · obtain ⟨x, -, rfl⟩ := Option.map_eq_some_iff.mp h
        rfl
      · cases h
        rfl
    · cases h
      rfl

theorem readsDistinct_withExponent (negative : Bool) (digits : Digits) :
    ReadsDistinct (withExponent negative digits) := by
  intro text found rest h
  unfold withExponent at h
  split at h
  · split at h
    · obtain ⟨⟨⟨below, exponent⟩, after⟩, -, h⟩ := Option.bind_eq_some_iff.mp h
      dsimp only at h
      split at h
      · obtain ⟨x, -, h⟩ := Option.bind_eq_some_iff.mp h
        cases h
        rfl
      · split at h
        · cases h
          rfl
        · cases h
    · obtain ⟨x, -, h⟩ := Option.bind_eq_some_iff.mp h
      cases h
      rfl
  · obtain ⟨x, -, h⟩ := Option.bind_eq_some_iff.mp h
    cases h
    rfl

theorem readsDistinct_number (negative : Bool) : ReadsDistinct (number negative) := by
  intro text found rest h
  unfold number at h
  dsimp only at h
  split at h
  · cases h
  · split at h
    · split at h
      · cases h
      · exact readsDistinct_withExponent _ _ _ _ _ h
    · split at h
      · exact readsDistinct_withExponent _ _ _ _ _ h
      · obtain ⟨number, hnumber, h⟩ := Option.map_eq_some_iff.mp h
        cases h
        exact hasDistinctKeys_of_integer hnumber
    · obtain ⟨number, hnumber, h⟩ := Option.map_eq_some_iff.mp h
      cases h
      exact hasDistinctKeys_of_integer hnumber

theorem readsDistinct_word (letters : List Char) {word : Tree}
    (hword : word.hasDistinctKeys = true) : ReadsDistinct (Json.word letters word) := by
  intro text found rest h
  obtain ⟨after, -, h⟩ := Option.map_eq_some_iff.mp h
  cases h
  exact hword

/-- A value is read as its items are, one level further in. -/
theorem readsDistinct_value (depth : Nat) : ReadsDistinct (value depth) := by
  intro text found rest h
  unfold value at h
  split at h
  · exact readsDistinct_word _ rfl _ _ _ h
  · exact readsDistinct_word _ rfl _ _ _ h
  · exact readsDistinct_word _ rfl _ _ _ h
  · obtain ⟨⟨string, after⟩, -, h⟩ := Option.map_eq_some_iff.mp h
    cases h
    rfl
  · exact readsDistinct_number true _ _ _ h
  · split at h
    · match depth, h with
      | depth + 1, h => exact readsDistinct_container (readsDistinct_value depth) _ _ _ _ h
    · exact readsDistinct_number false _ _ _ h
  · cases h

/-- No object of a JSON text has a key twice. -/
theorem hasDistinctKeys_of_read {text : String} {tree : Tree} (h : read text = some tree) :
    tree.hasDistinctKeys = true := by
  obtain ⟨⟨found, rest⟩, hfound, h⟩ := Option.bind_eq_some_iff.mp h
  dsimp only at h
  split at h
  · cases h
    exact readsDistinct_value _ _ _ _ hfound
  · cases h

/-! ### The sources of a JSON file -/

/-- A JSON file keeps the leaves of the value that its text stands for, where no name of a field has
a dot or an opening bracket. Only a blank file and an object without fields have no source. -/
theorem isKeptBy_of_load {name text : String} {resource : Resource} {sources : List Source}
    (htext : resource.text = .ok text) (hload : Format.json.load name resource = .ok sources)
    (hplain : ∀ tree, read text = some tree → tree.hasPlainKeys = true) :
    (Text.isAllBlank text = true ∧ sources = []) ∨ ∃ tree, read text = some tree ∧
      if tree.isEmptyTable then sources = []
      else ∃ source, sources = [source] ∧ tree.IsKeptBy source := by
  obtain ⟨found, hfound, hsources⟩ := Failure.bind_eq_ok_iff.mp hload
  obtain rfl := Except.ok.inj hsources
  obtain ⟨_, hsame, hfound⟩ := Failure.bind_eq_ok_iff.mp hfound
  obtain rfl := Except.ok.inj (htext.symm.trans hsame)
  split at hfound
  · next read hread =>
    obtain rfl := Except.ok.inj hfound
    unfold documents at hread
    split_ifs at hread with hblank
    · obtain rfl := Option.some_inj.mp hread
      exact .inl ⟨hblank, rfl⟩
    · obtain ⟨tree, htree, rfl⟩ := Option.map_eq_some_iff.mp hread
      refine .inr ⟨tree, htree, ?_⟩
      have hkept := Tree.isKeptBy_sources (List.forall_mem_singleton.mpr
        (hasDistinctKeys_of_read htree)) (List.forall_mem_singleton.mpr (hplain tree htree))
        name resource.location
      split_ifs with hempty
      · rw [List.filter_cons_of_neg (by simp [hempty]), List.filter_nil] at hkept
        exact List.forall₂_nil_left_iff.mp hkept
      · rw [List.filter_cons_of_pos (by simp [hempty]), List.filter_nil] at hkept
        obtain ⟨source, others, hsource, hothers, heq⟩ := List.forall₂_cons_left_iff.mp hkept
        rw [List.forall₂_nil_left_iff.mp hothers] at heq
        exact ⟨source, heq, hsource⟩
  · cases hfound

end LayeredConfig.Json
