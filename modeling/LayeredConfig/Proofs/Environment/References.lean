import LayeredConfig.Proofs.Placeholder.Fixpoint
import LayeredConfig.Proofs.Text

/-!
# Reading a key and referring to it

A text that is nothing but a reference to a key is replaced by the value of the key in one pass, and
from there on its passes are those of the value. They are counted with the first one, so a reference
may be refused where the value alone would just be settled in time. Whatever it does resolve to is
what the value resolves to: more passes than are needed change nothing.

## Main definitions

* `Placeholder.IsKey`: a key that a reference can name as it is.
* `Placeholder.reference`: a text that refers to a key and holds nothing else.

## Main results

* `Placeholder.settle_of_le`: a text that is settled in time stays the same with more passes.
* `Placeholder.settle_written`: the passes of a reference are those of the value behind it.
* `Environment.get?_of_resolve_reference`: reading a key and referring to it agree.
-/

namespace LayeredConfig

namespace Placeholder

variable {lookup : String → Option String} {text settled body : List Char} {key value : String}

/-! ### More passes -/

private theorem settle_succ {passes : Nat} (h : settle lookup passes text = some settled) :
    settle lookup (passes + 1) text = some settled := by
  induction passes generalizing text with
  | zero => cases h
  | succ passes ih =>
    rw [settle] at h ⊢
    split_ifs at h ⊢ with hself
    dsimp only at h ⊢
    split_ifs at h ⊢ with hpass
    · exact h
    · exact ih h

/-- The text that passes lead to stays the same when more passes are allowed. -/
theorem settle_of_le {passes more : Nat} (hle : passes ≤ more)
    (h : settle lookup passes text = some settled) : settle lookup more text = some settled := by
  induction more, hle using Nat.le_induction with
  | base => exact h
  | succ more _ ih => exact settle_succ ih

theorem resolve_eq_ok_iff {text settled : String} : resolve lookup text = .ok settled ↔
    settle lookup maxPasses text.toList = some settled.toList := by
  rw [resolve]
  split
  · next found hfound =>
    rw [hfound, Except.ok.injEq, Option.some_inj, ← String.toList_inj, String.toList_ofList]
  · next hnone => simp [hnone]

/-! ### A text that is a reference -/

/-- The only piece of a reference that stands alone is the reference. -/
theorem pieces_written (hbody : IsBody body) :
    pieces (Piece.reference body).written = [.reference body] := by
  have htake : takeReference (Piece.reference body).written = some (body, []) :=
    takeReference_eq_some_iff.mpr ⟨hbody, (List.append_nil _).symm⟩
  rw [pieces]
  split
  · next found rest hfound =>
    cases htake.symm.trans hfound
    simp [pieces, takeReference]
  · next hnone =>
    rw [htake] at hnone
    cases hnone

/-- After the first pass, a reference that stands alone is the value of its key. There is no text
for it if the value holds the reference. -/
theorem settle_written (hbody : IsBody body) (hvalue : lookup (Piece.key body) = some value)
    (passes : Nat) : settle lookup (passes + 1) (Piece.reference body).written =
      if Text.contains (Piece.reference body).written value.toList then none
      else settle lookup passes value.toList := by
  have hself : (pieces (Piece.reference body).written).any (Piece.isSelfReference lookup) =
      Text.contains (Piece.reference body).written value.toList := by
    simp [pieces_written hbody, Piece.isSelfReference, hvalue]
  have hpass : pass lookup (Piece.reference body).written = value.toList := by
    simp [pass, pieces_written hbody, Piece.expansion, hvalue]
  rw [settle, hself, hpass]
  by_cases hheld : Text.contains (Piece.reference body).written value.toList = true
  · rw [if_pos hheld, if_pos hheld]
  · have hne : value.toList ≠ (Piece.reference body).written :=
      fun heq => hheld (Text.contains_iff.mpr (heq ▸ List.infix_rfl))
    rw [if_neg hheld, if_neg hheld]
    exact if_neg hne

/-! ### Keys in references -/

/-- The key can stand in a reference as it is: it has no character with a meaning there, and no
blank ends. -/
structure IsKey (key : String) : Prop where
  ne_empty : key ≠ ""
  isBodyChar : ∀ c ∈ key.toList, isBodyChar c = true
  colon_notMem : ':' ∉ key.toList
  trimmed_eq : Text.trimmed key = key

/-- A text that refers to a key and holds nothing else. -/
def reference (key : String) : String :=
  "$\x7b" ++ key ++ "\x7d"

theorem toList_reference (key : String) :
    (reference key).toList = (Piece.reference key.toList).written := by
  have hopen : "$\x7b".toList = ['$', '{'] := rfl
  have hclose : "\x7d".toList = ['}'] := rfl
  rw [reference, String.toList_append, String.toList_append, hopen, hclose]
  rfl

namespace IsKey

theorem isBody (hkey : IsKey key) : IsBody key.toList :=
  ⟨fun hnil => hkey.ne_empty (String.toList_eq_nil_iff.mp hnil), hkey.isBodyChar⟩

/-- The body of the reference is read as the key. -/
theorem key_toList (hkey : IsKey key) : Piece.key key.toList = key := by
  have htake : key.toList.takeWhile (· != ':') = key.toList := by
    refine List.takeWhile_eq_self_iff.mpr fun c hc => ?_
    simpa using ne_of_mem_of_not_mem hc hkey.colon_notMem
  rw [Piece.key, htake]
  exact hkey.trimmed_eq

theorem default?_toList (hkey : IsKey key) : Piece.default? key.toList = none := by
  rw [Piece.default?, Text.cutFirst_eq_none_iff.mpr hkey.colon_notMem]
  rfl

/-- What a reference to a key resolves to, its value resolves to. -/
theorem resolve_value {settled : String} (hkey : IsKey key) (hvalue : lookup key = some value)
    (h : resolve lookup (reference key) = .ok settled) : resolve lookup value = .ok settled := by
  rw [resolve_eq_ok_iff, toList_reference] at h
  rw [← hkey.key_toList] at hvalue
  have hstep := settle_written hkey.isBody hvalue (maxPasses - 1)
  rw [Nat.sub_add_cancel (by decide), h] at hstep
  split_ifs at hstep
  exact resolve_eq_ok_iff.mpr (settle_of_le (Nat.sub_le _ _) hstep.symm)

/-- A reference to a key without a value stays as it is written. -/
theorem resolve_unknown (hkey : IsKey key) (hvalue : lookup key = none) :
    resolve lookup (reference key) = .ok (reference key) := by
  refine resolve_of_isSettled ?_
  rw [toList_reference, isSettled_iff, pieces_written hkey.isBody]
  rintro piece hpiece
  obtain rfl := List.mem_singleton.mp hpiece
  exact ⟨hkey.key_toList.symm ▸ hvalue, hkey.default?_toList⟩

end IsKey

end Placeholder

namespace Environment

open Placeholder (IsKey reference)

variable {env : Environment} {key : String}

theorem exists_contains_iff :
    (∃ source ∈ env.chain.sources, source.contains key = true) ↔
      ∃ property, env.chain.property? key = some property := by
  rw [← Option.isSome_iff_exists, Chain.property?, List.findSome?_isSome_iff]
  rfl

/-- Referring to a key and reading it agree. Where a text that is nothing but a reference to the key
resolves to some text, the key reads as this text if some source has it; if none has, the reference
stays as it is written, and the key reads as nothing. -/
theorem get?_of_resolve_reference {text : String} (hkey : IsKey key)
    (h : env.resolve (reference key) = .ok text) :
    ((∃ source ∈ env.chain.sources, source.contains key = true) →
      env.get? key = .ok (some text)) ∧
    ((∀ source ∈ env.chain.sources, source.contains key = false) →
      text = reference key ∧ env.get? key = .ok none) := by
  constructor
  · intro hsource
    obtain ⟨property, hproperty⟩ := exists_contains_iff.mp hsource
    have hvalue : (env.chain.property? key).map Property.value = some property.value := by
      rw [hproperty]
      rfl
    have hresolve : env.resolve property.value = .ok text := hkey.resolve_value hvalue h
    rw [get?, hproperty]
    simp only [hresolve]
    rfl
  · intro hnone
    have hproperty : env.chain.property? key = none := by
      refine List.findSome?_eq_none_iff.mpr fun source hsource => ?_
      simpa [Source.contains] using hnone source hsource
    have hvalue : (env.chain.property? key).map Property.value = none := by
      rw [hproperty]
      rfl
    refine ⟨Except.ok.inj (h.symm.trans (hkey.resolve_unknown hvalue)), ?_⟩
    rw [get?, hproperty]

/-- A name whose value refers to another key, which a second source has. -/
def namedEnvironment : Environment :=
  { chain := .ofSources [.ofPairs "commandLineArgs" [("name", "app-$\x7b stage:dev\x7d")],
      .ofVariables [("STAGE", "$\x7bregion:eu\x7d")]] }

theorem get?_of_resolve_reference_named :
    IsKey "name" ∧ namedEnvironment.resolve (reference "name") = .ok "app-eu" ∧
      namedEnvironment.get? "name" = .ok (some "app-eu") ∧
      IsKey "absent" ∧ namedEnvironment.resolve (reference "absent") = .ok (reference "absent") ∧
      namedEnvironment.get? "absent" = .ok none := by
  have hname : IsKey "name" :=
    ⟨by decide, List.all_eq_true.mp (by decide), by decide, by decide +kernel⟩
  have habsent : IsKey "absent" :=
    ⟨by decide, List.all_eq_true.mp (by decide), by decide, by decide +kernel⟩
  have hresolve : namedEnvironment.resolve (reference "name") = .ok "app-eu" := by decide +kernel
  have hunknown : namedEnvironment.resolve (reference "absent") = .ok (reference "absent") := by
    decide +kernel
  obtain ⟨hread, -⟩ := get?_of_resolve_reference hname hresolve
  obtain ⟨-, hnothing⟩ := get?_of_resolve_reference habsent hunknown
  exact ⟨hname, hresolve, hread (by decide +kernel), habsent, hunknown,
    (hnothing (by decide +kernel)).2⟩

end Environment

end LayeredConfig
