import LayeredConfig.Source

/-!
# Sources with an index

The entries of a source can be kept in an array, with an index that leads from every key to the
place of its entry. Reading and overwriting then follow the index. It leads only to places that
are there, for it is part of the source that it leads every key to its own entry.

## Main definitions

* `IsIndexOf`: an index leads every key to its entry.
* `Source.Indexed`, with `insert`, `get?` and `without`.
* `Source.Indexed.toSource`: the source as a list of entries.
-/

namespace LayeredConfig

/-- The index leads every key to its entry, and leads nowhere else. -/
def IsIndexOf {α : Type} (index : List (String × Nat)) (entries : Array (String × α)) : Prop :=
  ∀ key place, Pairs.get? key index = some place ↔ entries[place]?.map Prod.fst = some key

namespace IsIndexOf

variable {α : Type} {index : List (String × Nat)} {entries : Array (String × α)} {key : String}

theorem empty : IsIndexOf [] (#[] : Array (String × α)) := by
  simp [IsIndexOf, Pairs.get?]

theorem lt_size (h : IsIndexOf index entries) {place : Nat}
    (hplace : Pairs.get? key index = some place) : place < entries.size := by
  obtain ⟨entry, hentry, -⟩ := Option.map_eq_some_iff.mp ((h key place).mp hplace)
  exact (Array.getElem?_eq_some_iff.mp hentry).1

/-- A value can be overwritten under its key. -/
theorem set (h : IsIndexOf index entries) (place : Fin entries.size) (value : α) :
    IsIndexOf index (entries.set place (entries[place].1, value)) := by
  intro other place'
  rw [h other place', Array.getElem?_set]
  split
  · next heq => simp [← heq]
  · rfl

/-- A new key gets the place behind all others. -/
theorem push (h : IsIndexOf index entries) (hnew : Pairs.get? key index = none) (value : α) :
    IsIndexOf (Pairs.put key entries.size index) (entries.push (key, value)) := by
  intro other place
  rw [Pairs.get?_put, Array.getElem?_push]
  by_cases hkey : key = other
  · subst hkey
    by_cases hplace : place = entries.size
    · simp [hplace]
    · have hold : entries[place]?.map Prod.fst ≠ some key := by
        rw [Ne, ← h key place, hnew]
        simp
      simpa [hplace, Ne.symm hplace] using hold
  · by_cases hplace : place = entries.size
    · have hbeyond : Pairs.get? other index ≠ some entries.size :=
        fun heq => Nat.lt_irrefl _ (h.lt_size heq)
      simp [hkey, hplace, hbeyond]
    · simp [hkey, hplace, h other place]

end IsIndexOf

/-- A source whose entries are reached through an index of their keys. -/
structure Source.Indexed where
  name : String
  kind : SourceKind
  entries : Array (String × Property)
  index : List (String × Nat)
  isIndex : IsIndexOf index entries

namespace Source.Indexed

/-- A source without entries. -/
def empty (name : String) (kind : SourceKind := .plain) : Indexed :=
  { name, kind, entries := #[], index := [], isIndex := .empty }

/-- The place of a key. -/
def place? (source : Indexed) (key : String) : Option (Fin source.entries.size) :=
  match h : Pairs.get? key source.index with
  | some place => some ⟨place, source.isIndex.lt_size h⟩
  | none => none

theorem get?_index_eq (source : Indexed) (key : String) :
    Pairs.get? key source.index = (source.place? key).map Fin.val := by
  unfold place?
  split <;> simp [*]

/-- Sets the property of a key; a key that is there keeps its place. -/
def insert (source : Indexed) (key : String) (property : Property) : Indexed :=
  match h : source.place? key with
  | some place =>
    { source with
      entries := source.entries.set place (source.entries[place].1, property)
      isIndex := source.isIndex.set place property }
  | none =>
    { source with
      entries := source.entries.push (key, property)
      index := Pairs.put key source.entries.size source.index
      isIndex := source.isIndex.push (by rw [get?_index_eq, h]; rfl) property }

/-- Sets the properties of some keys, one after the other. -/
def insertAll (source : Indexed) (pairs : List (String × Property)) : Indexed :=
  pairs.foldl (fun source pair => source.insert pair.1 pair.2) source

/-- A source of values without origins. -/
def ofPairs (name : String) (pairs : List (String × String)) : Indexed :=
  (empty name).insertAll (pairs.map fun (key, value) => (key, { value }))

/-- The source of the given environment variables. -/
def ofVariables (vars : List (String × String)) : Indexed :=
  { ofPairs systemEnvironmentName vars with kind := .systemEnvironment }

/-- The property at the place of a key, as it is written. -/
def find? (source : Indexed) (key : String) : Option Property :=
  (source.place? key).map fun place => source.entries[place].2

/-- The property of a key, under the key itself or else, among environment variables, under
the variable's name for it. -/
def get? (source : Indexed) (key : String) : Option Property :=
  match source.find? key, source.kind with
  | some property, _ => some property
  | none, .systemEnvironment => source.find? (environmentName key)
  | none, .plain => none

/-- The source has a property for the key. -/
def contains (source : Indexed) (key : String) : Bool :=
  (source.get? key).isSome

/-- A source of the same name and kind, into which all entries but those of the given keys are
inserted. -/
def without (source : Indexed) (keys : List String) : Indexed :=
  source.entries.foldl (fun kept entry =>
    if keys.contains entry.1 then kept else kept.insert entry.1 entry.2)
    (empty source.name source.kind)

/-- The source as a list of entries. -/
def toSource (source : Indexed) : Source :=
  { name := source.name, kind := source.kind, entries := source.entries.toList }

end Source.Indexed

end LayeredConfig
