import LayeredConfig.Json.Printer
import LayeredConfig.Proofs.Text
import LayeredConfig.Proofs.Tree.Leaves

/-!
# The keys of the leaves

Flattening writes a path as a key: a dot before the name of a field, brackets around the index of
an item. Where the names of fields are plain, that is not empty and without dots and brackets, the
key tells the path, so that no two leaves of a document share a key.

## Main definitions

* `Tree.hasPlainKeys`: the names of all fields are plain.
* `Tree.key`, `Tree.leafText`: the key of a path and the text of a leaf.

## Main results

* `Tree.path_of_written`: what is written for a path of plain names tells the path.
* `Tree.entries_eq_map_documentLeaves`: a document is flattened to its leaves.
* `Tree.nodup_keys`: the leaves of a document have different keys.
-/

namespace LayeredConfig.Tree

/-! ### Plain names -/

/-- The name of a field is not empty and has none of the characters that part a key. -/
def isPlainKey (key : String) : Bool :=
  key ≠ "" && key.toList.all fun c => c ≠ '.' && c ≠ '[' && c ≠ ']'

/-- The names of the fields of all tables are plain. -/
def hasPlainKeys : Tree → Bool :=
  everyTable fun keys => keys.all isPlainKey

namespace Step

/-- What a key has for a step. -/
def written : Step → List Char
  | field key => '.' :: key.toList
  | item index => '[' :: (toString index).toList ++ [']']

/-- The step does not go into a field whose name is not plain. -/
def IsPlain : Step → Prop
  | field key => isPlainKey key = true
  | item _ => True

end Step

variable {tree : Tree}

theorem isPlain_of_mem_parts (h : tree.hasPlainKeys = true) {part : Step × Tree}
    (hpart : part ∈ tree.parts) : part.1.IsPlain := by
  unfold parts at hpart
  split at hpart
  · obtain ⟨item, -, rfl⟩ := List.mem_map.mp hpart
    trivial
  · next fields =>
    obtain ⟨field, hmem, rfl⟩ := List.mem_map.mp hpart
    exact List.all_eq_true.mp (everyTable_table_iff.mp h).1 _ (List.mem_map_of_mem hmem)
  · cases hpart

theorem isPlain_of_mem_leaves (h : tree.hasPlainKeys = true) {leaf : List Step × Tree}
    (hleaf : leaf ∈ tree.leaves) : ∀ step ∈ leaf.1, step.IsPlain := by
  induction tree using ofParts generalizing leaf with
  | h tree ih =>
    by_cases hend : tree.isLeaf = true
    · rw [leaves_of_isLeaf hend, List.mem_singleton] at hleaf
      simp [hleaf]
    · obtain ⟨part, hpart, below, hbelow, rfl⟩ := (mem_leaves_of_not_isLeaf hend).mp hleaf
      refine List.forall_mem_cons.mpr ⟨isPlain_of_mem_parts h hpart, ?_⟩
      exact ih part hpart (everyTable_part h hpart) hbelow

/-! ### Written paths -/

/-- The character neither ends the name of a field nor begins the next step. -/
private def isInName (c : Char) : Bool :=
  c ≠ '.' && c ≠ '['

private theorem isInName_of_isPlainKey {key : String} (h : isPlainKey key = true) :
    ∀ c ∈ key.toList, isInName c = true := by
  simp only [isPlainKey, isInName, Bool.and_eq_true, List.all_eq_true, decide_eq_true_eq] at h ⊢
  exact fun c hc => (h.2 c hc).1

/-- The name of a field ends where the next step begins. -/
private theorem takeWhile_name_append {key : String} (h : isPlainKey key = true)
    (path : List Step) :
    (key.toList ++ path.flatMap Step.written).takeWhile isInName = key.toList := by
  rw [List.takeWhile_append_of_pos (isInName_of_isPlainKey h)]
  match path with
  | [] => simp
  | .field _ :: _ | .item _ :: _ => simp [Step.written, isInName]

/-- An index ends where its bracket closes. -/
private theorem index_append_inj {m n : Nat} {rest rest' : List Char}
    (h : (toString m).toList ++ ']' :: rest = (toString n).toList ++ ']' :: rest') :
    m = n ∧ rest = rest' := by
  simp only [Nat.toString_eq_ofList_toDigits, String.toList_ofList] at h
  have hdigits (k : Nat) : ']' ∉ Nat.toDigits 10 k := Text.notMem_toDigits (by decide) k
  have hcut := (Text.cutFirst_eq_some_iff.mpr ⟨rfl, hdigits m⟩).symm.trans
    (Text.cutFirst_eq_some_iff.mpr ⟨h, hdigits n⟩)
  obtain ⟨hindex, hrest⟩ := Prod.mk.inj (Option.some.inj hcut)
  exact ⟨Text.toDigits_inj hindex, hrest⟩

/-- What is written for a path of plain names tells the path. -/
theorem path_of_written {path other : List Step} (hpath : ∀ step ∈ path, step.IsPlain)
    (hother : ∀ step ∈ other, step.IsPlain)
    (h : path.flatMap Step.written = other.flatMap Step.written) : path = other := by
  induction path generalizing other with
  | nil =>
    match other with
    | [] => rfl
    | .field _ :: _ | .item _ :: _ => simp [Step.written] at h
  | cons step path ih =>
    -- the first character tells whether the step goes into a field or to an item
    match step, other with
    | .field _, [] | .item _, [] => simp [Step.written] at h
    | .field _, .item _ :: _ | .item _, .field _ :: _ => simp [Step.written] at h
    | .field key, .field key' :: other =>
      rw [List.forall_mem_cons] at hpath hother
      simp only [List.flatMap_cons, Step.written, List.cons_append, List.cons.injEq,
        true_and] at h
      have hname : key.toList = key'.toList := by
        rw [← takeWhile_name_append hpath.1 path, h, takeWhile_name_append hother.1 other]
      rw [hname] at h
      rw [String.toList_inj.mp hname, ih hpath.2 hother.2 (List.append_cancel_left h)]
    | .item index, .item index' :: other =>
      rw [List.forall_mem_cons] at hpath hother
      simp only [List.flatMap_cons, Step.written, List.cons_append, List.cons.injEq, true_and,
        List.append_assoc, List.nil_append] at h
      obtain ⟨rfl, hrest⟩ := index_append_inj h
      rw [ih hpath.2 hother.2 hrest]

/-! ### Documents -/

/-- The text that a source keeps for a leaf. -/
def leafText : Tree → String
  | .null | .list _ | .table _ => ""
  | .text value => value
  | scalar => Json.compact scalar

/-- The key of a path in a document. A table has no name of its own, so no dot comes first. -/
def key (tree : Tree) (path : List Step) : String :=
  match tree with
  | .table _ => String.ofList ((path.flatMap Step.written).drop 1)
  | _ => rootPath ++ String.ofList (path.flatMap Step.written)

/-- What is below a step, below a path. -/
def stepPath (path : String) : Step → String
  | .field key => fieldPath path key
  | .item index => itemPath path index

theorem stepPath_of_ne_empty {path : String} (h : path ≠ "") (step : Step) :
    stepPath path step = path ++ String.ofList step.written := by
  cases step with
  | field key => simp [stepPath, fieldPath, h, Step.written, ← String.toList_inj]
  | item index => simp [stepPath, itemPath, Step.written, ← String.toList_inj]

theorem flatten_of_isLeaf (h : tree.isLeaf = true) {path : String} (hpath : path ≠ "") :
    tree.flatten path = [(path, tree.leafText)] := by
  cases tree <;> simp_all [isLeaf, flatten, leafText, Json.compact]

private theorem flattenItems_eq_flatMap (path : String) (index : Nat) (items : List Tree) :
    flattenItems path index items =
      (items.zipIdx index).flatMap fun item => item.1.flatten (itemPath path item.2) := by
  induction items generalizing index with
  | nil => rfl
  | cons item items ih => rw [flattenItems, ih, List.zipIdx_cons, List.flatMap_cons]

private theorem flattenFields_eq_flatMap (path : String) (fields : List (String × Tree)) :
    flattenFields path fields =
      fields.flatMap fun field => field.2.flatten (fieldPath path field.1) := by
  induction fields with
  | nil => rfl
  | cons field fields ih => rw [flattenFields, ih, List.flatMap_cons]

theorem flatten_of_not_isLeaf (h : ¬ tree.isLeaf = true) (path : String) :
    tree.flatten path = tree.parts.flatMap fun part => part.2.flatten (stepPath path part.1) := by
  match tree, h with
  | .list items, h =>
    rw [isLeaf] at h
    rw [flatten, if_neg h, flattenItems_eq_flatMap, parts, List.flatMap_map]
    rfl
  | .table fields, h =>
    rw [isLeaf] at h
    rw [flatten, if_neg (by simp [h]), flattenFields_eq_flatMap, parts, List.flatMap_map]
    rfl

/-- Below a path, a value is flattened to its leaves. -/
theorem flatten_eq_map_leaves {path : String} (hpath : path ≠ "") :
    tree.flatten path = tree.leaves.map fun leaf =>
      (path ++ String.ofList (leaf.1.flatMap Step.written), leaf.2.leafText) := by
  induction tree using ofParts generalizing path with
  | h tree ih =>
    by_cases hend : tree.isLeaf = true
    · rw [leaves_of_isLeaf hend, flatten_of_isLeaf hend hpath]
      simp
    · rw [leaves_of_not_isLeaf hend, flatten_of_not_isLeaf hend, List.map_flatMap]
      refine List.flatMap_congr fun part hpart => ?_
      have hne : stepPath path part.1 ≠ "" := by
        rw [stepPath_of_ne_empty hpath]
        simp [hpath]
      rw [ih part hpart hne, List.map_map, stepPath_of_ne_empty hpath]
      simp [Function.comp_def, String.append_assoc]

/-- The name of a field of a document is not empty, so it can stand without a dot. -/
private theorem flatten_field (key : String) (hkey : key ≠ "") (value : Tree) :
    value.flatten (fieldPath "" key) = value.leaves.map fun leaf =>
      (String.ofList (((Step.field key :: leaf.1).flatMap Step.written).drop 1),
        leaf.2.leafText) := by
  rw [fieldPath, if_pos rfl, flatten_eq_map_leaves hkey]
  simp [Step.written]

/-- A document is flattened to its leaves, each under the key of its path. -/
theorem entries_eq_map_documentLeaves (h : tree.hasPlainKeys = true) :
    tree.entries = tree.documentLeaves.map fun leaf => (tree.key leaf.1, leaf.2.leafText) := by
  match tree, h with
  | .table [], _ => rfl
  | .table (field :: fields), h =>
    have hend : ¬ (table (field :: fields)).isLeaf = true := by simp [isLeaf]
    rw [entries, flatten_of_not_isLeaf hend, documentLeaves_of_not_isLeaf hend,
      leaves_of_not_isLeaf hend, List.map_flatMap]
    refine List.flatMap_congr fun part hpart => ?_
    have hplain := isPlain_of_mem_parts h hpart
    obtain ⟨⟨key, value⟩, -, rfl⟩ := List.mem_map.mp hpart
    have hkey : key ≠ "" := by
      intro hempty
      rw [hempty] at hplain
      cases hplain
    rw [List.map_map]
    exact flatten_field key hkey value
  | .list _, _ | .null, _ | .flag _, _ | .int _, _ | .real _, _ | .text _, _ =>
    exact flatten_eq_map_leaves (by decide)

/-- What is written for the path to a leaf of a table is a dot and the key. -/
private theorem written_eq_dot_key {fields : List (String × Tree)} {leaf : List Step × Tree}
    (hleaf : leaf ∈ (table fields).documentLeaves) :
    leaf.1.flatMap Step.written = '.' :: ((table fields).key leaf.1).toList := by
  match fields, hleaf with
  | field :: fields, hleaf =>
    have hend : ¬ (table (field :: fields)).isLeaf = true := by simp [isLeaf]
    rw [documentLeaves_of_not_isLeaf hend] at hleaf
    obtain ⟨part, hpart, below, -, rfl⟩ := (mem_leaves_of_not_isLeaf hend).mp hleaf
    obtain ⟨⟨key, value⟩, -, rfl⟩ := List.mem_map.mp hpart
    simp [Tree.key, Step.written]

/-- The key of a leaf tells its path. -/
theorem path_of_key (h : tree.hasPlainKeys = true) {leaf other : List Step × Tree}
    (hleaf : leaf ∈ tree.documentLeaves) (hother : other ∈ tree.documentLeaves)
    (hkey : tree.key leaf.1 = tree.key other.1) : leaf.1 = other.1 := by
  refine path_of_written (isPlain_of_mem_leaves h (documentLeaves_sublist.subset hleaf))
    (isPlain_of_mem_leaves h (documentLeaves_sublist.subset hother)) ?_
  match tree, hleaf, hother, hkey with
  | .table fields, hleaf, hother, hkey =>
    rw [written_eq_dot_key hleaf, written_eq_dot_key hother, hkey]
  | .list _, _, _, hkey | .null, _, _, hkey | .flag _, _, _, hkey | .int _, _, _, hkey
  | .real _, _, _, hkey | .text _, _, _, hkey =>
    exact String.ofList_injective (by simpa [key] using hkey)

/-- The leaves of a document have different keys. -/
theorem nodup_keys (hdistinct : tree.hasDistinctKeys = true) (hplain : tree.hasPlainKeys = true) :
    (tree.documentLeaves.map fun leaf => tree.key leaf.1).Nodup := by
  refine List.pairwise_map.mpr ?_
  refine (pairwise_precedes_documentLeaves hdistinct).imp_of_mem fun hleaf hother hbefore hkey => ?_
  exact hbefore.ne hdistinct (path_of_key hplain hleaf hother hkey)

end LayeredConfig.Tree
