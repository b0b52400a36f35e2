import LayeredConfig.Proofs.Placeholder.Pieces
import LayeredConfig.SearchPath
import Mathlib.Data.List.Basic

/-!
# Replacing references reaches a fixpoint

Passes are repeated until one of them leaves the whole text as it is. That could happen while some
references are still replaced, if their replacements shifted into each other and made up the same
text again. It does not: the first replacement that differs from its reference would have to be
shorter, and the one where the lag is made up for would have to hold its own reference. A value that
does so is refused, and a default holds no dollar sign. So a pass that leaves the text leaves every
single piece, which means that nothing in the text can be replaced.

## Main definitions

* `Piece.Settled`, `IsSettled`: a piece, or a whole text, that has nothing to be replaced.

## Main results

* `settled_of_lag`: replacements that make up the same text leave every piece.
* `settle_self_iff`: a text stays as it is iff it is settled.
* `resolve_settles`: nothing is left to be replaced, and replacing again changes nothing.
* `SearchPath.items_get?`: the search path may replace the references of a value once more.
-/

namespace LayeredConfig

namespace Placeholder

variable {lookup : String → Option String} {text settled body : List Char} {piece : Piece}

/-- No reference can be replaced where an innermost one occurs in the text: its key is unknown, and
it carries no default. -/
def IsSettled (lookup : String → Option String) (text : List Char) : Prop :=
  ∀ before body after, IsBody body → text = before ++ ((Piece.reference body).written ++ after) →
    lookup (Piece.key body) = none ∧ Piece.default? body = none

namespace Piece

/-- The piece is no reference that can be replaced. -/
def Settled (lookup : String → Option String) : Piece → Prop
  | plain _ => True
  | reference body => lookup (key body) = none ∧ default? body = none

theorem Settled.expansion_eq (h : piece.Settled lookup) :
    piece.expansion lookup = piece.written := by
  cases piece with
  | plain c => rfl
  | reference body => simp only [expansion, h.1, h.2, Option.getD_none]

theorem Settled.isSelfReference_eq (h : piece.Settled lookup) :
    piece.isSelfReference lookup = false := by
  cases piece with
  | plain c => rfl
  | reference body => simp only [isSelfReference, h.1]

/-- A default holds no dollar sign. -/
private theorem dollar_notMem_default {default : List Char} (hbody : IsBody body)
    (h : default? body = some default) : '$' ∉ default := by
  unfold default? Text.cutFirst at h
  split at h
  · cases h
  · next c after heq =>
    cases h
    have hsub : (c :: after).Sublist body := heq ▸ List.dropWhile_sublist _
    exact fun hmem => hbody.dollar_notMem (hsub.subset (List.mem_cons_of_mem _ hmem))

/-- What replaces a piece holds the piece only where nothing is replaced. -/
theorem settled_of_holds (hpiece : piece ∈ pieces text)
    (hself : piece.isSelfReference lookup = false)
    (h : piece.written <:+: piece.expansion lookup) : piece.Settled lookup := by
  cases piece with
  | plain c => trivial
  | reference body =>
    cases hvalue : lookup (key body) with
    | some value =>
      simp only [isSelfReference, expansion, hvalue] at hself h
      rw [Text.contains_iff.mpr h] at hself
      cases hself
    | none =>
      refine ⟨hvalue, ?_⟩
      cases hdefault : default? body with
      | none => rfl
      | some default =>
        simp only [expansion, hvalue, hdefault, Option.getD_some] at h
        have hdollar : '$' ∈ default := h.subset (by simp [written])
        exact absurd hdollar (dollar_notMem_default (mem_pieces_iff.mp hpiece).1 hdefault)

end Piece

/-! ### A pass that leaves the text -/

/-- Where pieces lag behind what replaces them, but make up the same text, there is no lag, and
nothing is replaced. -/
theorem settled_of_lag {pieces : List Piece} {lag : List Char}
    (hkept : ∀ piece ∈ pieces, piece.written <:+: piece.expansion lookup → piece.Settled lookup)
    (h : lag ++ pieces.flatMap Piece.written = pieces.flatMap (Piece.expansion lookup)) :
    lag = [] ∧ ∀ piece ∈ pieces, piece.Settled lookup := by
  induction pieces generalizing lag with
  | nil => exact ⟨by simpa using h, by simp⟩
  | cons piece pieces ih =>
    have hrest (other : Piece) (hother : other ∈ pieces) :=
      hkept other (List.mem_cons_of_mem _ hother)
    have hpiece := hkept piece List.mem_cons_self
    rw [List.flatMap_cons, List.flatMap_cons, ← List.append_assoc] at h
    rcases List.append_eq_append_iff.mp h with ⟨more, hlonger, htail⟩ | ⟨more, hshorter, htail⟩
    · -- The replacement reaches to the end of the piece or farther, so it holds the piece.
      have hsettled := hpiece ⟨lag, more, hlonger.symm⟩
      rw [hsettled.expansion_eq] at hlonger
      obtain ⟨rfl, rfl⟩ : lag = [] ∧ more = [] := by
        have hlength := congrArg List.length hlonger
        simp only [List.length_append] at hlength
        exact ⟨List.length_eq_zero_iff.mp (by omega), List.length_eq_zero_iff.mp (by omega)⟩
      have hlined : [] ++ pieces.flatMap Piece.written =
          pieces.flatMap (Piece.expansion lookup) := htail
      exact ⟨rfl, List.forall_mem_cons.mpr ⟨hsettled, (ih hrest hlined).2⟩⟩
    · -- The replacement ends before the piece does. The rest of the piece lags behind.
      obtain ⟨rfl, hall⟩ := ih hrest htail.symm
      rw [List.append_nil] at hshorter
      have hsettled := hpiece ⟨lag, [], by rw [List.append_nil, hshorter]⟩
      rw [hsettled.expansion_eq, List.append_left_eq_self] at hshorter
      exact ⟨hshorter, List.forall_mem_cons.mpr ⟨hsettled, hall⟩⟩

/-- A text is settled iff its pieces are. -/
theorem isSettled_iff :
    IsSettled lookup text ↔ ∀ piece ∈ pieces text, piece.Settled lookup := by
  constructor
  · intro h piece hpiece
    cases piece with
    | plain c => trivial
    | reference body =>
      obtain ⟨hbody, before, after, htext⟩ := mem_pieces_iff.mp hpiece
      exact h before body after hbody htext
  · intro h before body after hbody htext
    exact h (.reference body) (mem_pieces_iff.mpr ⟨hbody, before, after, htext⟩)

/-- A pass leaves a text in which no value holds its own reference iff the text is settled. -/
theorem pass_eq_iff :
    (pieces text).any (Piece.isSelfReference lookup) = false ∧ pass lookup text = text ↔
      IsSettled lookup text := by
  rw [isSettled_iff]
  constructor
  · rintro ⟨hself, hpass⟩
    have hkept (piece : Piece) (hpiece : piece ∈ pieces text)
        (hheld : piece.written <:+: piece.expansion lookup) : piece.Settled lookup := by
      have hother := List.any_eq_false.mp hself piece hpiece
      exact Piece.settled_of_holds hpiece (by simpa using hother) hheld
    have hlined : [] ++ (pieces text).flatMap Piece.written =
        (pieces text).flatMap (Piece.expansion lookup) := by
      rw [List.nil_append, flatMap_written_pieces]
      exact hpass.symm
    exact (settled_of_lag hkept hlined).2
  · intro h
    refine ⟨List.any_eq_false.mpr fun piece hpiece => ?_, ?_⟩
    · rw [(h piece hpiece).isSelfReference_eq]
      simp
    · have hsame : pass lookup text = (pieces text).flatMap Piece.written :=
        List.flatMap_congr fun piece hpiece => (h piece hpiece).expansion_eq
      rw [hsame, flatMap_written_pieces]

/-! ### Passes until nothing changes -/

/-- A text to which passes lead is settled. -/
theorem isSettled_of_settle {passes : Nat} (h : settle lookup passes text = some settled) :
    IsSettled lookup settled := by
  induction passes generalizing text with
  | zero => cases h
  | succ passes ih =>
    rw [settle] at h
    split at h
    · cases h
    · next hself =>
      dsimp only at h
      split at h
      · next hpass =>
        cases h
        exact pass_eq_iff.mp ⟨by simpa using hself, hpass⟩
      · exact ih h

/-- A text stays as it is iff it is settled. -/
theorem settle_self_iff {passes : Nat} :
    settle lookup (passes + 1) text = some text ↔ IsSettled lookup text := by
  refine ⟨isSettled_of_settle, fun h => ?_⟩
  obtain ⟨hself, hpass⟩ := pass_eq_iff.mpr h
  rw [settle, hself]
  simp [hpass]

/-- A settled text resolves to itself. -/
theorem resolve_of_isSettled {text : String} (h : IsSettled lookup text.toList) :
    resolve lookup text = .ok text := by
  have hself : settle lookup maxPasses text.toList = some text.toList := settle_self_iff.mpr h
  rw [resolve, hself]
  simp

/-- What a text resolves to is settled. -/
theorem isSettled_of_resolve {text settled : String} (h : resolve lookup text = .ok settled) :
    IsSettled lookup settled.toList := by
  unfold resolve at h
  split at h
  · next found hfound =>
    cases h
    rw [String.toList_ofList]
    exact isSettled_of_settle hfound
  · cases h

/-- In a text in which references were replaced, none is left that could be: wherever an innermost
one occurs, its key is unknown and it carries no default. Replacing again changes nothing. -/
theorem resolve_settles {text settled : String} (h : resolve lookup text = .ok settled) :
    IsSettled lookup settled.toList ∧ resolve lookup settled = .ok settled :=
  ⟨isSettled_of_resolve h, resolve_of_isSettled (isSettled_of_resolve h)⟩

/-- Two keys, one of which refers to the other. -/
def twoKeys (key : String) : Option String :=
  if key = "name" then some "app-$\x7benv\x7d"
  else if key = "env" then some "prod"
  else none

theorem resolve_settles_twoKeys :
    resolve twoKeys "$\x7bname\x7d,$\x7b env:dev\x7d,$\x7babsent\x7d" =
        .ok "app-prod,prod,$\x7babsent\x7d" ∧
      IsSettled twoKeys "app-prod,prod,$\x7babsent\x7d".toList ∧
      resolve twoKeys "app-prod,prod,$\x7babsent\x7d" =
        .ok "app-prod,prod,$\x7babsent\x7d" := by
  have hresolve : resolve twoKeys "$\x7bname\x7d,$\x7b env:dev\x7d,$\x7babsent\x7d" =
      .ok "app-prod,prod,$\x7babsent\x7d" := by decide +kernel
  exact ⟨hresolve, resolve_settles hresolve⟩

end Placeholder

/-! ### Values that were looked up -/

variable {env : Environment} {key value : String}

/-- The references of a value that was looked up are replaced already. -/
theorem Environment.resolve_get? (h : env.get? key = .ok (some value)) :
    env.resolve value = .ok value := by
  unfold get? at h
  split at h
  · obtain ⟨resolved, hresolved, h⟩ := Failure.bind_eq_ok_iff.mp h
    cases h
    exact Placeholder.resolve_of_isSettled (Placeholder.isSettled_of_resolve hresolved)
  · cases h

/-- The search path replaces the references of such a value once more, and gets its items. -/
theorem SearchPath.items_get? (h : env.get? key = .ok (some value)) :
    items env value = .ok (Text.splitList value).reverse.eraseDups := by
  rw [items, Environment.resolve_get? h]
  rfl

end LayeredConfig
