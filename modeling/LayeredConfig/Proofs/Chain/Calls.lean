import LayeredConfig.Proofs.Chain

/-!
# Runs of calls that change a chain

A chain is changed by calls, each of which names one source: it is put at an end or beside
another source, replaced, or erased. Whatever the calls, no name stands in the chain twice, and
the sources that a call does not name keep their order. A source that is put beside another one
leaves its old place, on whichever side that was. Nothing changes where the other source is
absent or is the one that moves.

## Main definitions

* `Chain.Call`, `Chain.after?`, `Chain.afterAll`: the calls, what one does, and what all do.
* `Chain.Call.IsMisplaced`, `Chain.Call.IsMissing`: calls that change nothing.
* `Chain.Effect`: what a call does to the source that it names.
* `Chain.IsOrderly`: what holds of a chain between calls.

## Main results

* `Chain.Distinct.after`, `Chain.distinct_afterAll`: no name stands in a chain twice.
* `Chain.Distinct.erase_after`: the sources that a call does not name.
* `Chain.after?_eq_none_iff`, `Chain.after_eq_self`: when a call changes nothing.
* `Chain.property?_eq_some_iff`: the first source that has a key counts.
* `Chain.isOrderly_afterAll`: all of this after every run of calls.
-/

namespace LayeredConfig

namespace Chain

/-- A call that changes a chain. -/
inductive Call
  | addFirst (source : Source)
  | addLast (source : Source)
  | addBefore (relative : String) (source : Source)
  | addAfter (relative : String) (source : Source)
  | erase (name : String)
  | replace (source : Source)
  deriving DecidableEq, Repr

/-- The name of the source that a call moves, puts in, replaces or erases. -/
def Call.name : Call → String
  | .addFirst source | .addLast source | .addBefore _ source | .addAfter _ source
  | .replace source => source.name
  | .erase name => name

/-- The neighbour that is asked for is absent, or is of the name of the source itself. -/
def Call.IsMisplaced (chain : Chain) : Call → Prop
  | .addBefore relative source | .addAfter relative source =>
    relative ∉ chain.names ∨ relative = source.name
  | _ => False

/-- There is no source to erase or to replace. -/
def Call.IsMissing (chain : Chain) : Call → Prop
  | .erase name => name ∉ chain.names
  | .replace source => source.name ∉ chain.names
  | _ => False

/-- The chain after a call, unless the call is refused. -/
def after? (chain : Chain) : Call → Option Chain
  | .addFirst source => some (chain.addFirst source)
  | .addLast source => some (chain.addLast source)
  | .addBefore relative source => chain.addBefore? relative source
  | .addAfter relative source => chain.addAfter? relative source
  | .erase name => some (chain.erase name)
  | .replace source => some (chain.replace source)

/-- The chain after a call. -/
def after (chain : Chain) (call : Call) : Chain :=
  (chain.after? call).getD chain

/-- The chain after some calls. -/
def afterAll (chain : Chain) (calls : List Call) : Chain :=
  calls.foldl after chain

/-- One source stands directly above another one. -/
def IsDirectlyAbove (chain : Chain) (a b : Source) : Prop :=
  ∃ above below, chain.sources = above ++ a :: b :: below

/-- What a call that is not refused does to the source that it names. -/
def Effect (before after : Chain) : Call → Prop
  | .addFirst source => after.sources.head? = some source
  | .addLast source => after.sources.getLast? = some source
  | .addBefore relative source =>
    ∃ other, before.get? relative = some other ∧ after.IsDirectlyAbove source other
  | .addAfter relative source =>
    ∃ other, before.get? relative = some other ∧ after.IsDirectlyAbove other source
  | .erase name => name ∉ after.names
  | .replace source =>
    after.names = before.names ∧ (source.name ∈ before.names → source ∈ after.sources)

variable {chain changed : Chain} {source : Source} {call : Call}

/-! ### Names -/

/-- A call that is not refused keeps the names distinct. -/
private theorem Distinct.after? (h : chain.Distinct) (hcall : chain.after? call = some changed) :
    changed.Distinct := by
  cases call with
  | addFirst source => exact Option.some.inj hcall ▸ h.addFirst source
  | addLast source => exact Option.some.inj hcall ▸ h.addLast source
  | addBefore relative source => exact h.addBefore? hcall
  | addAfter relative source => exact h.addAfter? hcall
  | erase name => exact Option.some.inj hcall ▸ h.erase name
  | replace source => exact Option.some.inj hcall ▸ h.replace source

/-- A call keeps the names distinct. -/
theorem Distinct.after (h : chain.Distinct) (call : Call) : (chain.after call).Distinct := by
  unfold Chain.after
  cases hcall : chain.after? call with
  | none => exact h
  | some changed => exact h.after? hcall

/-- A run of calls keeps the names distinct. -/
theorem Distinct.afterAll (h : chain.Distinct) (calls : List Call) :
    (chain.afterAll calls).Distinct := by
  induction calls generalizing chain with
  | nil => exact h
  | cons call calls ih => exact ih (h.after call)

theorem distinct_afterAll (calls : List Call) : (afterAll {} calls).Distinct :=
  have hempty : Distinct {} := List.nodup_nil
  hempty.afterAll calls

/-! ### The other sources -/

private theorem erase_insert {above below : List Source}
    (hnew : source.name ∉ names ⟨above ++ below⟩) :
    erase ⟨above ++ source :: below⟩ source.name = ⟨above ++ below⟩ := by
  have hkept : ∀ other ∈ above ++ below, (other.name != source.name) = true := by
    intro other hother
    rw [bne_iff_ne]
    exact fun heq => hnew (heq ▸ List.mem_map_of_mem hother)
  rw [erase, List.filter_append, List.filter_cons_of_neg (by simp), ← List.filter_append,
    List.filter_eq_self.mpr hkept]

private theorem erase_replace :
    (chain.replace source).erase source.name = chain.erase source.name := by
  obtain ⟨sources⟩ := chain
  simp only [replace, erase, Chain.mk.injEq]
  induction sources with
  | nil => rfl
  | cons other sources ih =>
    rw [List.map_cons, List.filter_cons, List.filter_cons, ih]
    by_cases h : other.name = source.name <;> simp [h]

/-- The sources that a call does not name are the same, in the same order. -/
theorem Distinct.erase_after (h : chain.Distinct) (call : Call) :
    (chain.after call).erase call.name = chain.erase call.name := by
  unfold Chain.after
  cases hcall : chain.after? call with
  | none => rfl
  | some changed =>
    rw [Option.getD_some]
    cases call with
    | addFirst source =>
      obtain rfl := Option.some.inj hcall
      simp [Call.name, Chain.addFirst, Chain.erase]
    | addLast source =>
      obtain rfl := Option.some.inj hcall
      simp [Call.name, Chain.addLast, Chain.erase]
    | addBefore relative source =>
      obtain ⟨above, other, below, -, hsplit, hnew, rfl⟩ := h.exists_addBefore? hcall
      exact (erase_insert hnew).trans hsplit.symm
    | addAfter relative source =>
      obtain ⟨above, other, below, -, hsplit, hnew, rfl⟩ := h.exists_addAfter? hcall
      rw [List.append_cons] at hnew hsplit ⊢
      exact (erase_insert hnew).trans hsplit.symm
    | erase name =>
      obtain rfl := Option.some.inj hcall
      simp [Call.name, Chain.erase]
    | replace source =>
      obtain rfl := Option.some.inj hcall
      exact erase_replace

/-! ### Calls that change nothing -/

private theorem isNeighbour_eq_false_iff {relative : String} :
    chain.isNeighbour relative source = false ↔
      relative ∉ chain.names ∨ relative = source.name := by
  rw [isNeighbour, Bool.and_eq_false_iff, ← Bool.not_eq_true, contains_iff, bne_eq_false_iff_eq]

/-- A call is refused if the neighbour it asks for is absent or of the name of the source. -/
theorem after?_eq_none_iff : chain.after? call = none ↔ call.IsMisplaced chain := by
  cases call with
  | addBefore relative source | addAfter relative source =>
    simp [after?, addBefore?, addAfter?, Call.IsMisplaced, ← isNeighbour_eq_false_iff]
  | _ => simp [after?, Call.IsMisplaced]

/-- A call that is refused, or that finds no source of the name, leaves the chain as it is. -/
theorem after_eq_self (h : call.IsMisplaced chain ∨ call.IsMissing chain) :
    chain.after call = chain := by
  rcases h with h | h
  · rw [after, after?_eq_none_iff.mpr h, Option.getD_none]
  · have hother {name : String} (hmissing : name ∉ chain.names) (other : Source)
        (hmem : other ∈ chain.sources) : other.name ≠ name :=
      fun heq => hmissing (heq ▸ List.mem_map_of_mem hmem)
    cases call with
    | erase name =>
      change (⟨chain.sources.filter _⟩ : Chain) = chain
      rw [List.filter_eq_self.mpr fun other hmem => by simpa using hother h other hmem]
    | replace source =>
      change (⟨chain.sources.map _⟩ : Chain) = chain
      have hsame : chain.sources.map
          (fun other => if other.name = source.name then source else other) = chain.sources :=
        (List.map_congr_left fun other hmem => if_neg (hother h other hmem)).trans
          (List.map_id _)
      rw [hsame]
    | _ => exact h.elim

/-! ### The source that a call names -/

/-- The neighbour of a source that is put in stood in the chain before. -/
private theorem Distinct.get?_of_split (h : chain.Distinct) {name : String}
    {above below : List Source} {other : Source}
    (hsplit : chain.erase name = ⟨above ++ other :: below⟩) :
    chain.get? other.name = some other := by
  have hmem : other ∈ (chain.erase name).sources := by simp [hsplit]
  exact h.get?_of_mem (List.mem_filter.mp hmem).1

/-- A call that is not refused does to its source what it says. -/
theorem Distinct.effect (h : chain.Distinct) (hcall : chain.after? call = some changed) :
    Effect chain changed call := by
  cases call with
  | addFirst source =>
    obtain rfl := Option.some.inj hcall
    rfl
  | addLast source =>
    obtain rfl := Option.some.inj hcall
    exact List.getLast?_concat
  | addBefore relative source =>
    obtain ⟨above, other, below, rfl, hsplit, -, rfl⟩ := h.exists_addBefore? hcall
    exact ⟨other, h.get?_of_split hsplit, above, below, rfl⟩
  | addAfter relative source =>
    obtain ⟨above, other, below, rfl, hsplit, -, rfl⟩ := h.exists_addAfter? hcall
    exact ⟨other, h.get?_of_split hsplit, above, below, rfl⟩
  | erase name =>
    obtain rfl := Option.some.inj hcall
    exact notMem_names_erase
  | replace source =>
    obtain rfl := Option.some.inj hcall
    refine ⟨names_replace, fun hname => ?_⟩
    obtain ⟨other, hother, hname⟩ := List.mem_map.mp hname
    exact List.mem_map.mpr ⟨other, hother, if_pos hname⟩

/-! ### Values -/

/-- The value of a key is that of the first source that has the key. -/
theorem property?_eq_some_iff {key : String} {property : Property} :
    chain.property? key = some property ↔
      ∃ above source below, chain.sources = above ++ source :: below ∧
        (∀ other ∈ above, other.contains key = false) ∧ source.get? key = some property := by
  simp only [property?, List.findSome?_eq_some_iff, Source.contains, Option.isSome_eq_false_iff,
    Option.isNone_iff_eq_none]
  constructor
  · rintro ⟨above, source, below, hsplit, hget, habove⟩
    exact ⟨above, source, below, hsplit, habove, hget⟩
  · rintro ⟨above, source, below, hsplit, habove, hget⟩
    exact ⟨above, source, below, hsplit, hget, habove⟩

theorem property?_eq_none_iff {key : String} :
    chain.property? key = none ↔ ∀ source ∈ chain.sources, source.contains key = false := by
  simp [property?, Source.contains]

/-! ### Runs of calls -/

/-- What holds of a chain between the calls that change it. -/
structure IsOrderly (chain : Chain) : Prop where
  /-- No two sources have the same name. -/
  distinct : chain.Distinct
  /-- The sources that a call does not name stay as they are and keep their order. -/
  others : ∀ call, (chain.after call).erase call.name = chain.erase call.name
  /-- A call is refused exactly if the neighbour that it asks for is absent or of the name of its
  source. -/
  refused : ∀ call, chain.after? call = none ↔ call.IsMisplaced chain
  /-- A call that is not refused puts its source where it says. -/
  effect : ∀ call changed, chain.after? call = some changed → Effect chain changed call
  /-- Nothing changes if a call is refused, or finds nothing to erase or to replace. -/
  unchanged : ∀ call, call.IsMisplaced chain ∨ call.IsMissing chain → chain.after call = chain
  /-- The value of a key is that of the first source that has the key. -/
  value : ∀ key property, chain.property? key = some property ↔
    ∃ above source below, chain.sources = above ++ source :: below ∧
      (∀ other ∈ above, other.contains key = false) ∧ source.get? key = some property
  /-- A key that no source has is without a value. -/
  valueless : ∀ key, chain.property? key = none ↔
    ∀ source ∈ chain.sources, source.contains key = false

/-- Whatever the calls that have made a chain from the empty one, it is in order. -/
theorem isOrderly_afterAll (calls : List Call) : (afterAll {} calls).IsOrderly :=
  have h := distinct_afterAll calls
  { distinct := h
    others := h.erase_after
    refused := fun _ => after?_eq_none_iff
    effect := fun _ _ => h.effect
    unchanged := fun _ => after_eq_self
    value := fun _ _ => property?_eq_some_iff
    valueless := fun _ => property?_eq_none_iff }

/-- A source moves across its neighbour in either direction, and stays where it is if it is asked
to stand beside itself. -/
example :
    (afterAll {} [.addLast { name := "a" }, .addLast { name := "b" }, .addLast { name := "c" },
      .addAfter "c" { name := "a" }, .addBefore "b" { name := "c" },
      .addBefore "b" { name := "b" }]).names = ["c", "b", "a"] := by
  decide +kernel

end Chain

end LayeredConfig
