import LayeredConfig.Format.BuiltIn
import LayeredConfig.Proofs.Pairs
import LayeredConfig.Proofs.Tree.Keys
import Mathlib.Data.List.Forall2

/-!
# The sources of structured documents

A source keeps one value a key, so a document is only kept whole if no two of its leaves share a
key. Where the names of fields are plain they do not: the source of a document has as many entries
as the document has leaves, and under the key of each leaf it has the text of that leaf.

## Main definitions

* `Tree.IsKeptBy`: a source has the leaves of a document and nothing else.
* `Tree.nested`: a document with tables and lists in one another.

## Main results

* `Tree.isKeptBy_source`: the source of a document keeps its leaves.
* `Tree.sources_keep_leaves`: what becomes of the leaves of structured documents.
-/

namespace LayeredConfig.Tree

/-- A source has the leaves of a document and nothing else. -/
def IsKeptBy (tree : Tree) (source : Source) : Prop :=
  source.size = tree.documentLeaves.length ∧
    ∀ leaf ∈ tree.documentLeaves,
      (source.get? (tree.key leaf.1)).map Property.value = some leaf.2.leafText

variable {tree : Tree} {trees : List Tree}

/-- The source of a document has its leaves in document order. -/
theorem entries_source (hdistinct : tree.hasDistinctKeys = true)
    (hplain : tree.hasPlainKeys = true) (name location : String) (index : Nat) (place : Place) :
    (Format.source name location index
      (tree.entries.map fun leaf => { key := leaf.1, text := leaf.2, place })).entries =
      tree.documentLeaves.map fun leaf =>
        (tree.key leaf.1,
          { value := leaf.2.leafText, origin := place.origin? location index }) := by
  rw [Format.source, entries_eq_map_documentLeaves hplain, List.map_map, List.map_map]
  refine Pairs.ofList_of_nodup ?_
  rw [List.map_map]
  exact nodup_keys hdistinct hplain

/-- The source of a document keeps its leaves. -/
theorem isKeptBy_source (hdistinct : tree.hasDistinctKeys = true)
    (hplain : tree.hasPlainKeys = true) (name location : String) (index : Nat) (place : Place) :
    tree.IsKeptBy (Format.source name location index
      (tree.entries.map fun leaf => { key := leaf.1, text := leaf.2, place })) := by
  have hentries := entries_source hdistinct hplain name location index place
  refine ⟨by rw [Source.size, hentries, List.length_map], fun leaf hleaf => ?_⟩
  have hget : Pairs.get? (tree.key leaf.1) (Format.source name location index
      (tree.entries.map fun leaf => { key := leaf.1, text := leaf.2, place })).entries =
        some { value := leaf.2.leafText, origin := place.origin? location index } := by
    rw [hentries]
    refine Pairs.get?_of_mem ?_ (List.mem_map.mpr ⟨leaf, hleaf, rfl⟩)
    rw [List.map_map]
    exact nodup_keys hdistinct hplain
  rw [Source.get?, hget]
  rfl

/-- The sources of structured documents keep their leaves. A document without leaves has none. -/
theorem isKeptBy_sources (hdistinct : ∀ tree ∈ trees, tree.hasDistinctKeys = true)
    (hplain : ∀ tree ∈ trees, tree.hasPlainKeys = true) (name location : String) :
    List.Forall₂ IsKeptBy (trees.filter fun tree => !tree.isEmptyTable)
      (Format.sources name location (documents trees)) := by
  have hkept : documents trees = (trees.filter fun tree => !tree.isEmptyTable).map
      fun tree => tree.entries.map fun leaf => ⟨leaf.1, leaf.2, .document⟩ := by
    rw [documents, List.filter_map]
    congr 1
    refine List.filter_congr fun tree htree => ?_
    rw [Function.comp_apply, entries_eq_map_documentLeaves (hplain tree htree), Bool.eq_iff_iff]
    simp [documentLeaves_eq_nil_iff]
  rw [hkept, Format.sources, List.forall₂_iff_get]
  refine ⟨by simp, fun index hindex hindex' => ?_⟩
  have hmem : (trees.filter fun tree => !tree.isEmptyTable)[index] ∈ trees :=
    (List.mem_filter.mp (List.getElem_mem hindex)).1
  simpa using isKeptBy_source (hdistinct _ hmem) (hplain _ hmem) _ location index .document

/-- Every leaf of a structured document becomes one entry, and its source keeps them all. -/
theorem sources_keep_leaves (hdistinct : ∀ tree ∈ trees, tree.hasDistinctKeys = true)
    (hplain : ∀ tree ∈ trees, tree.hasPlainKeys = true) (name location : String) :
    (∀ tree ∈ trees,
      (∀ path leaf, (path, leaf) ∈ tree.documentLeaves ↔
        tree.at? path = some leaf ∧ leaf.isLeaf = true ∧ ¬ (path = [] ∧ leaf = .table [])) ∧
      tree.documentLeaves.Pairwise (fun leaf other => tree.Precedes leaf.1 other.1) ∧
      tree.entries = tree.documentLeaves.map (fun leaf => (tree.key leaf.1, leaf.2.leafText)) ∧
      (tree.entries.map Prod.fst).Nodup) ∧
    List.Forall₂ IsKeptBy (trees.filter fun tree => !tree.isEmptyTable)
      (Format.sources name location (documents trees)) := by
  refine ⟨fun tree htree => ?_, isKeptBy_sources hdistinct hplain name location⟩
  have hentries := entries_eq_map_documentLeaves (hplain tree htree)
  refine ⟨fun path leaf => mem_documentLeaves_iff (hdistinct tree htree),
    pairwise_precedes_documentLeaves (hdistinct tree htree), hentries, ?_⟩
  rw [hentries, List.map_map]
  exact nodup_keys (hdistinct tree htree) (hplain tree htree)

/-- A document with tables and lists in one another. -/
def nested : Tree :=
  .table [("server", .table [("port", .int 8080),
    ("hosts", .list [.text "a", .list [.flag true, .null]]), ("tls", .table [])])]

/-- Beside an empty document, the nested one has a source with its five leaves. -/
theorem nested_keeps_leaves :
    (∀ tree ∈ [nested, .table []], tree.hasDistinctKeys = true) ∧
    (∀ tree ∈ [nested, .table []], tree.hasPlainKeys = true) ∧
    ∃ source, Format.sources "config" "config.json" (documents [nested, .table []]) = [source] ∧
      source.size = 5 ∧
      (source.get? "server.hosts[1][0]").map Property.value = some "true" ∧
      (source.get? "server.tls").map Property.value = some "" := by
  have hdistinct : ∀ tree ∈ [nested, .table []], tree.hasDistinctKeys = true := by decide
  have hplain : ∀ tree ∈ [nested, .table []], tree.hasPlainKeys = true := by decide +kernel
  obtain ⟨hleaves, hsources⟩ := sources_keep_leaves hdistinct hplain "config" "config.json"
  obtain ⟨hmem, -, hentries, -⟩ := hleaves nested (by simp)
  obtain ⟨source, rest, ⟨hsize, hget⟩, hrest, hsource⟩ := List.forall₂_cons_left_iff.mp hsources
  cases hrest
  refine ⟨hdistinct, hplain, source, hsource, ?_, ?_, ?_⟩
  · rw [hsize]
    have hlength := congrArg List.length hentries
    rw [List.length_map] at hlength
    rw [← hlength]
    decide +kernel
  · exact hget ([.field "server", .field "hosts", .item 1, .item 0], .flag true)
      ((hmem _ _).mpr ⟨rfl, rfl, by simp⟩)
  · exact hget ([.field "server", .field "tls"], .table []) ((hmem _ _).mpr ⟨rfl, rfl, by simp⟩)

end LayeredConfig.Tree
