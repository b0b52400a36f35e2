import LayeredConfig.Proofs.Order
import LayeredConfig.Tree
import Mathlib.Data.List.Nodup

/-!
# The leaves of a structured value

A path leads from a value to one of its parts, to a part of that part, and so on. The leaves of a
value are the values without parts at the end of such a path. They are listed here with their
paths, in the order in which they stand in the document: where the paths to two leaves branch off,
the one that takes the earlier part comes first.

## Main definitions

* `Tree.Step`, `Tree.parts`, `Tree.at?`: paths and where they lead.
* `Tree.leaves`, `Tree.documentLeaves`: the leaves of a value and of a document with their paths.
* `Tree.Precedes`: the order of paths in a document.
* `Tree.hasDistinctKeys`: no table has a key twice.

## Main results

* `Tree.ofParts`: induction over the parts of values.
* `Tree.mem_leaves_iff`, `Tree.mem_documentLeaves_iff`: the leaves are what stands without parts at
  the end of a path.
* `Tree.pairwise_precedes_leaves`: the leaves are in document order.
-/

namespace LayeredConfig.Tree

/-! ### Paths -/

/-- A step from a value into one of its parts. -/
inductive Step
  | field (key : String)
  | item (index : Nat)
  deriving DecidableEq, Repr

/-- The parts of a value in order, each with the step that leads there. -/
def parts : Tree → List (Step × Tree)
  | .list items => items.zipIdx.map fun (item, index) => (.item index, item)
  | .table fields => fields.map fun (key, value) => (.field key, value)
  | _ => []

/-- The value has no parts. -/
def isLeaf : Tree → Bool
  | .list items => items.isEmpty
  | .table fields => fields.isEmpty
  | _ => true

/-- What stands in a value at the end of a path. -/
def at? : Tree → List Step → Option Tree
  | tree, [] => some tree
  | tree, step :: path => (tree.parts.lookup step).bind fun part => part.at? path

variable {tree : Tree}

theorem parts_eq_nil_iff : tree.parts = [] ↔ tree.isLeaf = true := by
  cases tree <;> simp [parts, isLeaf]

theorem sizeOf_lt_of_mem_parts {part : Step × Tree} (h : part ∈ tree.parts) :
    sizeOf part.2 < sizeOf tree := by
  unfold parts at h
  split at h
  · next items =>
    obtain ⟨⟨item, index⟩, hmem, rfl⟩ := List.mem_map.mp h
    have hitem : item ∈ items := (List.mem_zipIdx' hmem).2 ▸ List.getElem_mem _
    have hlt := List.sizeOf_lt_of_mem hitem
    simp only [list.sizeOf_spec]
    omega
  · next fields =>
    obtain ⟨⟨key, value⟩, hmem, rfl⟩ := List.mem_map.mp h
    have hlt := List.sizeOf_lt_of_mem hmem
    simp only [table.sizeOf_spec, Prod.mk.sizeOf_spec] at hlt ⊢
    omega
  · cases h

/-- What holds of a value whenever it holds of its parts holds of every value. -/
@[elab_as_elim]
theorem ofParts {motive : Tree → Prop}
    (h : ∀ tree : Tree, (∀ part ∈ tree.parts, motive part.2) → motive tree) (tree : Tree) :
    motive tree :=
  h tree fun part hpart =>
    have := sizeOf_lt_of_mem_parts hpart
    ofParts h part.2
termination_by sizeOf tree

/-! ### Leaves -/

/-- The leaves of a value in document order, each with the path that leads there. -/
def leaves (tree : Tree) : List (List Step × Tree) :=
  if tree.isLeaf then [([], tree)]
  else tree.parts.attach.flatMap fun part =>
    part.1.2.leaves.map fun leaf => (part.1.1 :: leaf.1, leaf.2)
termination_by sizeOf tree
decreasing_by exact sizeOf_lt_of_mem_parts part.2

theorem leaves_of_isLeaf (h : tree.isLeaf = true) : tree.leaves = [([], tree)] := by
  rw [leaves, if_pos h]

theorem leaves_of_not_isLeaf (h : ¬ tree.isLeaf = true) :
    tree.leaves =
      tree.parts.flatMap fun part => part.2.leaves.map fun leaf => (part.1 :: leaf.1, leaf.2) := by
  rw [leaves, if_neg h]
  conv_rhs => rw [← List.attach_map_subtype_val tree.parts, List.flatMap_map]

/-- A leaf of a value with parts is a leaf of one of them, one step further away. -/
theorem mem_leaves_of_not_isLeaf (h : ¬ tree.isLeaf = true) {leaf : List Step × Tree} :
    leaf ∈ tree.leaves ↔
      ∃ part ∈ tree.parts, ∃ below ∈ part.2.leaves, (part.1 :: below.1, below.2) = leaf := by
  simp only [leaves_of_not_isLeaf h, List.mem_flatMap, List.mem_map]

theorem leaves_ne_nil : tree.leaves ≠ [] := by
  induction tree using ofParts with
  | h tree ih =>
    by_cases hleaf : tree.isLeaf = true
    · simp [leaves_of_isLeaf hleaf]
    · obtain ⟨part, hpart⟩ := List.exists_mem_of_ne_nil _ (mt parts_eq_nil_iff.mp hleaf)
      rw [leaves_of_not_isLeaf hleaf, Ne, List.flatMap_eq_nil_iff]
      exact fun h => ih part hpart (List.map_eq_nil_iff.mp (h part hpart))

/-! ### Keys that occur once -/

mutual

/-- The keys of every table that stands in a value pass a check. -/
def everyTable (check : List String → Bool) : Tree → Bool
  | .list items => everyTableOfItems check items
  | .table fields => check (fields.map Prod.fst) && everyTableOfFields check fields
  | _ => true

/-- The keys of every table that stands in one of the items pass a check. -/
def everyTableOfItems (check : List String → Bool) : List Tree → Bool
  | [] => true
  | item :: items => everyTable check item && everyTableOfItems check items

/-- The keys of every table that stands in one of the fields pass a check. -/
def everyTableOfFields (check : List String → Bool) : List (String × Tree) → Bool
  | [] => true
  | (_, value) :: fields => everyTable check value && everyTableOfFields check fields

end

/-- No table has a key twice. -/
def hasDistinctKeys : Tree → Bool :=
  everyTable fun keys => keys.Nodup

variable {check : List String → Bool}

theorem everyTable_list_iff {items : List Tree} :
    (list items).everyTable check = true ↔ ∀ item ∈ items, item.everyTable check = true := by
  rw [everyTable]
  induction items with
  | nil => simp [everyTableOfItems]
  | cons item items ih => simp [everyTableOfItems, ih]

theorem everyTable_table_iff {fields : List (String × Tree)} :
    (table fields).everyTable check = true ↔
      check (fields.map Prod.fst) = true ∧ ∀ field ∈ fields, field.2.everyTable check = true := by
  have hfields : everyTableOfFields check fields = true ↔
      ∀ field ∈ fields, field.2.everyTable check = true := by
    induction fields with
    | nil => simp [everyTableOfFields]
    | cons field fields ih => simp [everyTableOfFields, ih]
  rw [everyTable, Bool.and_eq_true, hfields]

theorem everyTable_part (h : tree.everyTable check = true) {part : Step × Tree}
    (hpart : part ∈ tree.parts) : part.2.everyTable check = true := by
  unfold parts at hpart
  split at hpart
  · next items =>
    obtain ⟨⟨item, index⟩, hmem, rfl⟩ := List.mem_map.mp hpart
    exact everyTable_list_iff.mp h item ((List.mem_zipIdx' hmem).2 ▸ List.getElem_mem _)
  · next fields =>
    obtain ⟨field, hmem, rfl⟩ := List.mem_map.mp hpart
    exact (everyTable_table_iff.mp h).2 field hmem
  · cases hpart

theorem everyTable_at (h : tree.everyTable check = true) {path : List Step} {node : Tree}
    (hnode : tree.at? path = some node) : node.everyTable check = true := by
  induction path generalizing tree with
  | nil =>
    cases hnode
    exact h
  | cons step path ih =>
    obtain ⟨part, hlookup, hnode⟩ := Option.bind_eq_some_iff.mp hnode
    obtain ⟨l₁, l₂, hsplit, -⟩ := List.lookup_eq_some_iff.mp hlookup
    have hpart : (step, part) ∈ tree.parts := by simp [hsplit]
    exact ih (everyTable_part h hpart) hnode

/-- Where keys occur once, the steps to the parts of a value differ. -/
theorem nodup_steps (h : tree.hasDistinctKeys = true) : (tree.parts.map Prod.fst).Nodup := by
  match tree, h with
  | .list items, _ =>
    have hsteps : (parts (.list items)).map Prod.fst = (items.zipIdx.map Prod.snd).map .item := by
      simp only [parts, List.map_map]
      rfl
    rw [hsteps, List.zipIdx_map_snd]
    exact (List.nodup_range' ..).map fun _ _ h => Step.item.inj h
  | .table fields, h =>
    have hkeys : (fields.map Prod.fst).Nodup := by
      simpa using (everyTable_table_iff.mp h).1
    have hsteps : (parts (.table fields)).map Prod.fst = (fields.map Prod.fst).map Step.field := by
      simp [parts]
    rw [hsteps]
    exact hkeys.map fun _ _ h => Step.field.inj h
  | .null, _ | .flag _, _ | .int _, _ | .real _, _ | .text _, _ => exact List.nodup_nil

theorem lookup_parts_iff (h : tree.hasDistinctKeys = true) {step : Step} {part : Tree} :
    tree.parts.lookup step = some part ↔ (step, part) ∈ tree.parts := by
  rw [List.lookup_eq_some_iff]
  constructor
  · rintro ⟨l₁, l₂, hsplit, -⟩
    simp [hsplit]
  · intro hmem
    obtain ⟨l₁, l₂, hsplit⟩ := List.append_of_mem hmem
    refine ⟨l₁, l₂, hsplit, fun other hother => ?_⟩
    have hnodup := nodup_steps h
    rw [hsplit, List.map_append, List.nodup_append] at hnodup
    have hne := hnodup.2.2 _ (List.mem_map_of_mem hother) step (by simp)
    simpa using Ne.symm hne

/-- The leaves of a value are what stands in it without parts at the end of a path. -/
theorem mem_leaves_iff (h : tree.hasDistinctKeys = true) {path : List Step} {leaf : Tree} :
    (path, leaf) ∈ tree.leaves ↔ tree.at? path = some leaf ∧ leaf.isLeaf = true := by
  induction tree using ofParts generalizing path with
  | h tree ih =>
    by_cases hleaf : tree.isLeaf = true
    · rw [leaves_of_isLeaf hleaf]
      cases path with
      | nil => grind [at?]
      | cons step path => simp [at?, parts_eq_nil_iff.mpr hleaf]
    · rw [mem_leaves_of_not_isLeaf hleaf]
      cases path with
      | nil => grind [at?]
      | cons step path =>
        constructor
        · rintro ⟨part, hpart, below, hbelow, heq⟩
          obtain ⟨hpath, rfl⟩ := Prod.mk.inj heq
          obtain ⟨rfl, rfl⟩ := List.cons.inj hpath
          obtain ⟨hat, hend⟩ := (ih part hpart (everyTable_part h hpart)).mp hbelow
          refine ⟨?_, hend⟩
          rw [at?, (lookup_parts_iff h).mpr hpart]
          exact hat
        · rintro ⟨hat, hend⟩
          obtain ⟨part, hlookup, hat⟩ := Option.bind_eq_some_iff.mp hat
          have hpart := (lookup_parts_iff h).mp hlookup
          have hbelow := (ih (step, part) hpart (everyTable_part h hpart)).mpr ⟨hat, hend⟩
          exact ⟨(step, part), hpart, (path, leaf), hbelow, rfl⟩

/-! ### Document order -/

/-- Where two paths branch off, the first takes a part that stands before that of the second. -/
def Precedes (tree : Tree) (path other : List Step) : Prop :=
  ∃ trunk node step path' step' other',
    path = trunk ++ step :: path' ∧ other = trunk ++ step' :: other' ∧
      tree.at? trunk = some node ∧ Before (node.parts.map Prod.fst) step step'

theorem Precedes.ne (h : tree.hasDistinctKeys = true) {path other : List Step}
    (hprecedes : tree.Precedes path other) : path ≠ other := by
  obtain ⟨trunk, node, step, path', step', other', rfl, rfl, hnode, hbefore⟩ := hprecedes
  intro heq
  have hstep : step = step' := (List.cons.inj (List.append_cancel_left heq)).1
  exact hbefore.ne (nodup_steps (everyTable_at h hnode)) hstep

/-- The order of paths below a part is that of the longer paths through it. -/
theorem Precedes.cons {step : Step} {part : Tree} (hlookup : tree.parts.lookup step = some part)
    {path other : List Step} (h : part.Precedes path other) :
    tree.Precedes (step :: path) (step :: other) := by
  obtain ⟨trunk, node, next, path', next', other', rfl, rfl, hnode, hbefore⟩ := h
  refine ⟨step :: trunk, node, next, path', next', other', rfl, rfl, ?_, hbefore⟩
  rw [at?, hlookup]
  exact hnode

/-- Paths through an earlier part precede those through a later one. -/
theorem Precedes.of_before {step step' : Step} (h : Before (tree.parts.map Prod.fst) step step')
    (path other : List Step) : tree.Precedes (step :: path) (step' :: other) :=
  ⟨[], tree, step, path, step', other, rfl, rfl, rfl, h⟩

/-- The leaves are in document order. -/
theorem pairwise_precedes_leaves (h : tree.hasDistinctKeys = true) :
    tree.leaves.Pairwise fun leaf other => tree.Precedes leaf.1 other.1 := by
  induction tree using ofParts with
  | h tree ih =>
    by_cases hleaf : tree.isLeaf = true
    · rw [leaves_of_isLeaf hleaf]
      exact List.pairwise_singleton ..
    · rw [leaves_of_not_isLeaf hleaf, List.pairwise_flatMap]
      refine ⟨fun part hpart => ?_, ?_⟩
      · rw [List.pairwise_map]
        refine (ih part hpart (everyTable_part h hpart)).imp fun hprecedes => ?_
        exact hprecedes.cons ((lookup_parts_iff h).mpr hpart)
      · refine List.pairwise_iff_forall_sublist.mpr fun {part part'} hbefore => ?_
        intro leaf hmem other hother
        obtain ⟨below, -, rfl⟩ := List.mem_map.mp hmem
        obtain ⟨below', -, rfl⟩ := List.mem_map.mp hother
        exact .of_before (Before.map hbefore Prod.fst) ..

/-! ### Documents -/

/-- The value is a table without fields. -/
def isEmptyTable : Tree → Bool
  | .table [] => true
  | _ => false

/-- The leaves of a document. A document that is an empty table has none. -/
def documentLeaves (tree : Tree) : List (List Step × Tree) :=
  if tree.isEmptyTable then [] else tree.leaves

theorem isEmptyTable_iff : tree.isEmptyTable = true ↔ tree = .table [] := by
  unfold isEmptyTable
  split
  · simp
  · next hne => simpa using hne

theorem documentLeaves_of_not_isLeaf (h : ¬ tree.isLeaf = true) :
    tree.documentLeaves = tree.leaves := by
  rw [documentLeaves, if_neg]
  rw [isEmptyTable_iff]
  rintro rfl
  exact h rfl

theorem documentLeaves_sublist : tree.documentLeaves.Sublist tree.leaves := by
  unfold documentLeaves
  split
  · exact List.nil_sublist _
  · exact List.Sublist.refl _

/-- Only an empty table has no leaf. -/
theorem documentLeaves_eq_nil_iff : tree.documentLeaves = [] ↔ tree.isEmptyTable = true := by
  rw [documentLeaves]
  split
  · next h => simp [h]
  · next h => simp [h, leaves_ne_nil]

/-- The leaves of a document are what stands in it without parts, but for an empty document. -/
theorem mem_documentLeaves_iff (h : tree.hasDistinctKeys = true) {path : List Step} {leaf : Tree} :
    (path, leaf) ∈ tree.documentLeaves ↔
      tree.at? path = some leaf ∧ leaf.isLeaf = true ∧ ¬ (path = [] ∧ leaf = .table []) := by
  rw [documentLeaves]
  split
  · next hempty =>
    obtain rfl := isEmptyTable_iff.mp hempty
    refine ⟨fun hmem => (List.not_mem_nil hmem).elim, fun ⟨hat, _, hne⟩ => ?_⟩
    cases path with
    | nil => exact absurd ⟨rfl, (Option.some.inj hat).symm⟩ hne
    | cons step path => cases hat
  · next hne =>
    rw [mem_leaves_iff h]
    refine ⟨fun ⟨hat, hend⟩ => ⟨hat, hend, ?_⟩, fun ⟨hat, hend, _⟩ => ⟨hat, hend⟩⟩
    rintro ⟨rfl, rfl⟩
    exact hne (isEmptyTable_iff.mpr (Option.some.inj hat))

/-- The leaves of a document are in document order. -/
theorem pairwise_precedes_documentLeaves (h : tree.hasDistinctKeys = true) :
    tree.documentLeaves.Pairwise fun leaf other => tree.Precedes leaf.1 other.1 :=
  (pairwise_precedes_leaves h).sublist documentLeaves_sublist

end LayeredConfig.Tree
