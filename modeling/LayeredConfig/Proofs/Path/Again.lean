import LayeredConfig.Proofs.Path.Clean

/-!
# Cleaning a location once more

Segments in normal form have nothing left to collapse, and the slashes that are kept once are kept
again. So a cleaned location stays as it is as long as its prefix is found again. Where it is not,
the first segment holds a colon and now counts as a prefix up to there. What the segment holds after
the colon is then a segment of its own, and it is collapsed if it is a dot.

## Main definitions

* `Path.HidesDot`: the first segment that is left ends with a colon and a dot.

## Main results

* `Path.cleanRest_cleanRest`: cleaning what follows the same prefix once more changes nothing.
* `Path.clean_clean_iff`: when cleaning a location once more changes nothing.
-/

namespace LayeredConfig.Path

variable {path : String} {rest label after : List Char} {segments : List (List Char)}
  {hasScheme closed : Bool} {slashes : Nat}

/-- The cleaned location begins with a segment that ends with a colon and a dot, the only colon in
it, and that is not all there is to a directory. No prefix or slash came before. -/
def HidesDot (path : String) : Prop :=
  schemeOf path = [] ∧ (restOf path).head? ≠ some '/' ∧ ∃ label segments, ':' ∉ label ∧
    collapse ((restOf path).splitOn '/') = (label ++ ':' :: here) :: segments ∧
    (segments = [] → isClosed (restOf path) = false)

/-! ### The same prefix -/

theorem keptSlashes_keptSlashes :
    keptSlashes hasScheme (keptSlashes hasScheme slashes) = keptSlashes hasScheme slashes := by
  cases hasScheme <;> grind [keptSlashes]

theorem collapse_splitOn_written (closed : Bool) (h : AreSeparable segments)
    (hnormal : IsNormal segments) :
    collapse ((written segments closed).splitOn '/') = segments := by
  by_cases hne : segments = []
  · subst hne
    rw [written_nil]
    rfl
  · rw [splitOn_written closed h hne]
    cases closed with
    | true => rw [if_pos rfl, collapse_concat_skip (.inl rfl), collapse_of_isNormal hnormal]
    | false => simpa using collapse_of_isNormal hnormal

/-- Normal segments are written again as they are. -/
theorem cleanRest_written (hasScheme : Bool) (slashes : Nat) (closed : Bool)
    (h : AreSeparable segments) (hnormal : IsNormal segments) :
    cleanRest hasScheme (List.replicate slashes '/' ++ written segments closed) =
      List.replicate (keptSlashes hasScheme slashes) '/' ++ written segments closed := by
  have hsame : written segments (isClosed (written segments closed)) = written segments closed := by
    by_cases hne : segments = []
    · simp [hne]
    · rw [isClosed_written h hne]
  have hleft := collapse_splitOn_written closed h hnormal
  by_cases hslashes : slashes = 0
  · rw [hslashes, (keptSlashes_eq_zero_iff _ 0).mpr rfl, List.replicate_zero, List.nil_append,
      cleanRest_relative (head?_written h), hleft, hsame, if_neg]
    rintro ⟨rfl, hclosed⟩
    simp [isClosed] at hclosed
  · rw [cleanRest_rooted (head?_written h) hslashes, hleft, hsame]

/-- Cleaning what follows the same prefix once more changes nothing. -/
theorem cleanRest_cleanRest :
    cleanRest hasScheme (cleanRest hasScheme rest) = cleanRest hasScheme rest := by
  have hcleaned := cleanedTo_cleanRest hasScheme rest
  generalize cleanRest hasScheme rest = cleaned at hcleaned
  cases hcleaned with
  | marker => cases hasScheme <;> decide
  | written slashes =>
    rw [cleanRest_written _ _ _ (areSeparable_collapse _) (isNormal_collapse _),
      keptSlashes_keptSlashes]

theorem clean_clean_of_not_showsScheme (h : ¬ ShowsScheme path) :
    clean (clean path) = clean path := by
  have hsplit := (splitScheme_clean path).mpr h
  have hscheme : schemeOf (clean path) = schemeOf path := by
    rw [schemeOf, withSlashes_clean, hsplit]
  have hrest : restOf (clean path) = cleanRest (!(schemeOf path).isEmpty) (restOf path) := by
    rw [restOf, withSlashes_clean, hsplit]
  rw [← String.toList_inj, toList_clean, hscheme, hrest, cleanRest_cleanRest, toList_clean]

/-! ### A first segment that counts as a prefix -/

theorem written_append_cons (label after : List Char) (segments : List (List Char)) :
    written ((label ++ after) :: segments) closed =
      label ++ written (after :: segments) closed := by
  cases segments <;> simp [written]

theorem written_empty_cons (hne : segments ≠ []) :
    written ([] :: segments) closed = '/' :: written segments closed := by
  obtain ⟨segment, segments, rfl⟩ := List.exists_cons_of_ne_nil hne
  simp [written]

/-- The parts of a cleaned location whose first segment counts as a prefix. -/
theorem ShowsScheme.exists_parts (h : ShowsScheme path) :
    ∃ label after segments, ':' ∉ label ∧ '/' ∉ label ++ ':' :: after ∧
      collapse ((restOf path).splitOn '/') = (label ++ ':' :: after) :: segments ∧
      (clean path).toList =
        label ++ ':' :: written (after :: segments) (isClosed (restOf path)) := by
  obtain ⟨hscheme, hhead, first, hfirst, hcolon⟩ := h
  obtain ⟨segments, hleft⟩ := List.head?_eq_some_iff.mp hfirst
  obtain ⟨label, after, rfl, hlabel⟩ := List.eq_append_cons_of_mem hcolon
  have hfirst : label ++ ':' :: after ∈ collapse ((restOf path).splitOn '/') := by
    rw [hleft]
    exact List.mem_cons_self
  refine ⟨label, after, segments, hlabel, (areSeparable_collapse _ _ hfirst).2, hleft, ?_⟩
  rw [toList_clean, hscheme, List.nil_append, cleanRest_relative hhead, hleft, if_neg (by simp),
    written_append_cons]
  congr 1
  cases segments <;> simp [written]

/-- What follows the new prefix stays as it is, unless a dot comes first. -/
theorem cleanRest_shown (closed : Bool) (hnames : ∀ name ∈ segments, IsName name)
    (h : AreSeparable segments) (hslash : '/' ∉ after) :
    cleanRest true (written (after :: segments) closed) = written (after :: segments) closed ↔
      ¬ (after = here ∧ (segments = [] → closed = false)) := by
  have hcons (hne : after ≠ []) : AreSeparable (after :: segments) :=
    List.forall_mem_cons.mpr ⟨⟨hne, hslash⟩, h⟩
  have hkept (hne : after ≠ []) (hafter : IsNormal (after :: segments)) :
      cleanRest true (written (after :: segments) closed) = written (after :: segments) closed :=
    cleanRest_written true 0 closed (hcons hne) hafter
  have hnormal : IsNormal segments := isNormal_append 0 hnames
  rcases segment_cases after with (rfl | rfl) | rfl | hname
  · refine iff_of_true ?_ (by simp [here])
    by_cases hne : segments = []
    · subst hne
      cases closed <;> decide
    · rw [written_empty_cons hne]
      exact cleanRest_written true 1 closed h hnormal
  · by_cases hne : segments = []
    · subst hne
      cases closed <;> decide
    · refine iff_of_false (fun heq => ?_) (by simp [hne])
      -- The dot is dropped, so what is left has one segment less.
      have hdot : AreSeparable (here :: segments) := hcons (by decide)
      have hleft : collapse ((written (here :: segments) closed).splitOn '/') = segments := by
        rw [splitOn_written closed hdot (by simp), List.cons_append, ← splitOn_written closed h hne]
        exact collapse_splitOn_written closed h hnormal
      rw [cleanRest_relative (head?_written hdot), hleft, if_neg (by simp [hne]),
        isClosed_written hdot (by simp)] at heq
      have hsame : segments = here :: segments := calc
        segments = segmentsOf (written segments closed) := (segmentsOf_written 0 closed h).symm
        _ = segmentsOf (written (here :: segments) closed) := by rw [heq]
        _ = here :: segments := segmentsOf_written 0 closed hdot
      exact List.cons_ne_self here segments hsame.symm
  · refine iff_of_true (hkept (by decide) ?_) (by simp [here, above])
    exact isNormal_append 1 hnames
  · refine iff_of_true (hkept hname.1 ?_) fun hafter => hname.2.1 hafter.1
    exact isNormal_append 0 (List.forall_mem_cons.mpr ⟨hname, hnames⟩)

theorem hidesDot_iff (hscheme : schemeOf path = []) (hhead : (restOf path).head? ≠ some '/')
    (hcolon : ':' ∉ label)
    (hleft : collapse ((restOf path).splitOn '/') = (label ++ ':' :: after) :: segments) :
    HidesDot path ↔ after = here ∧ (segments = [] → isClosed (restOf path) = false) := by
  constructor
  · rintro ⟨-, -, label', segments', hcolon', hleft', hopen⟩
    rw [hleft, List.cons.injEq] at hleft'
    obtain ⟨hfirst, rfl⟩ := hleft'
    have hcut : some (label', here) = some (label, after) := by
      rw [← Text.cutFirst_eq_some_iff.mpr ⟨rfl, hcolon⟩, hfirst,
        Text.cutFirst_eq_some_iff.mpr ⟨rfl, hcolon'⟩]
    cases hcut
    exact ⟨rfl, hopen⟩
  · rintro ⟨rfl, hopen⟩
    exact ⟨hscheme, hhead, label, segments, hcolon, hleft, hopen⟩

/-- Cleaning once more changes nothing, unless a dot comes to stand behind a prefix. Cleaning twice
is always enough. -/
theorem clean_clean_iff (path : String) :
    (clean (clean path) = clean path ↔ ¬ HidesDot path) ∧
      clean (clean (clean path)) = clean (clean path) := by
  by_cases hshows : ShowsScheme path
  · obtain ⟨label, after, segments, hcolon, hslash, hleft, hclean⟩ := hshows.exists_parts
    have hlabel : '/' ∉ label := fun hmem => hslash (List.mem_append_left _ hmem)
    have hafter : '/' ∉ after := fun hmem => hslash (by simp [hmem])
    have hsplit : splitScheme (clean path).toList =
        (label ++ [':'], written (after :: segments) (isClosed (restOf path))) := by
      rw [hclean, splitScheme_append hcolon hlabel]
    have hscheme : schemeOf (clean path) = label ++ [':'] := by
      rw [schemeOf, withSlashes_clean, hsplit]
    have hrest : restOf (clean path) = written (after :: segments) (isClosed (restOf path)) := by
      rw [restOf, withSlashes_clean, hsplit]
    refine ⟨?_, clean_clean_of_not_showsScheme fun h => ?_⟩
    · have hnames : ∀ name ∈ (label ++ ':' :: after) :: segments, IsName name := by
        have hnormal : IsNormal ((label ++ ':' :: after) :: segments) :=
          hleft ▸ isNormal_collapse _
        refine hnormal.isName fun heq => ?_
        have hmem : ':' ∈ above := heq ▸ List.mem_append_right _ List.mem_cons_self
        exact absurd hmem (by decide)
      have hsegments : AreSeparable ((label ++ ':' :: after) :: segments) :=
        hleft ▸ areSeparable_collapse (restOf path)
      rw [hidesDot_iff hshows.1 hshows.2.1 hcolon hleft, ← cleanRest_shown (isClosed (restOf path))
        (fun name hname => hnames name (List.mem_cons_of_mem _ hname))
        (fun name hname => hsegments name (List.mem_cons_of_mem _ hname)) hafter]
      have hlong : (!(label ++ [':']).isEmpty) = true := by simp
      rw [← String.toList_inj, toList_clean, hscheme, hrest, hclean, hlong]
      simp
    · have hnil := h.1
      simp [hscheme] at hnil
  · have hsame := clean_clean_of_not_showsScheme hshows
    refine ⟨iff_of_true hsame ?_, by rw [hsame, hsame]⟩
    rintro ⟨hscheme, hhead, label, segments, -, hleft, -⟩
    exact hshows ⟨hscheme, hhead, _, by rw [hleft]; rfl, by simp⟩

/-- A path below the base directory is cleaned to a location on the class path, of which the dot is
dropped the second time. -/
theorem clean_clean_dotted :
    clean "./classpath:./app.yml" = "classpath:./app.yml" ∧
      clean (clean "./classpath:./app.yml") = "classpath:app.yml" ∧
      clean (clean "./classpath:./app.yml") ≠ clean "./classpath:./app.yml" := by
  decide +kernel

end LayeredConfig.Path
