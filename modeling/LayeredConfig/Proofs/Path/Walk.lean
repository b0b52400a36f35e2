import LayeredConfig.Path
import Mathlib.Data.List.Induction
import Mathlib.Data.List.TakeWhile

/-!
# Where segments lead

The segments of a path lead from directory to directory. A stack of names, the innermost on top,
stands for the directory that was reached: a name goes on top of it, and `..` takes the top away,
as long as there is one. Collapsing a list of segments leaves a run of `..` and names after it, and
such a list leads from every directory to where the segments lead. It is the only one that does.

## Main definitions

* `Path.IsName`, `Path.IsNormal`: a proper name, and segments of which none can be left out.
* `Path.follow`: the directory that segments lead to.

## Main results

* `Path.isNormal_collapse`, `Path.collapse_of_isNormal`: collapsing ends in the normal form.
* `Path.follow_collapse`: collapsed segments lead to the same directory.
* `Path.collapse_eq_iff`: segments that lead to the same directories collapse to the same list.
-/

namespace LayeredConfig.Path

variable {segment name : List Char} {segments names others : List (List Char)} {climbs : Nat}
  {stack : List (List Char)}

/-- What comes before the first other element is a run of one element. -/
theorem takeWhile_beq_eq_replicate {α : Type} [BEq α] [LawfulBEq α] (a : α) (l : List α) :
    l.takeWhile (· == a) = List.replicate (l.takeWhile (· == a)).length a :=
  List.eq_replicate_iff.mpr ⟨rfl, fun b hb => by simpa using List.mem_takeWhile_imp hb⟩

/-! ### Normal segments -/

/-- The segment leads into a directory, or to a file, of its own name. -/
def IsName (segment : List Char) : Prop :=
  segment ≠ [] ∧ segment ≠ here ∧ segment ≠ above

instance (segment : List Char) : Decidable (IsName segment) :=
  inferInstanceAs (Decidable (_ ∧ _ ∧ _))

/-- After a run of `..`, all segments are names. -/
def IsNormal (segments : List (List Char)) : Prop :=
  ∀ segment ∈ segments.dropWhile (· == above), IsName segment

instance (segments : List (List Char)) : Decidable (IsNormal segments) :=
  inferInstanceAs (Decidable (∀ _ ∈ _, _))

theorem segment_cases (segment : List Char) :
    (segment = [] ∨ segment = here) ∨ segment = above ∨ IsName segment := by
  unfold IsName
  tauto

theorem isNormal_append (climbs : Nat) (h : ∀ name ∈ names, IsName name) :
    IsNormal (List.replicate climbs above ++ names) := by
  intro segment hmem
  rw [List.dropWhile_append_of_pos (by simp)] at hmem
  exact h segment ((List.dropWhile_sublist _).subset hmem)

/-- Normal segments climb first and then descend. -/
theorem isNormal_iff : IsNormal segments ↔ ∃ climbs names,
    segments = List.replicate climbs above ++ names ∧ ∀ name ∈ names, IsName name := by
  constructor
  · intro h
    refine ⟨(segments.takeWhile (· == above)).length, segments.dropWhile (· == above), ?_, h⟩
    rw [← takeWhile_beq_eq_replicate, List.takeWhile_append_dropWhile]
  · rintro ⟨climbs, names, rfl, h⟩
    exact isNormal_append climbs h

theorem IsNormal.left (h : IsNormal (segments ++ others)) : IsNormal segments := by
  intro segment hmem
  refine h segment ?_
  rw [List.dropWhile_append, if_neg (by simpa using List.ne_nil_of_mem hmem)]
  exact List.mem_append_left _ hmem

/-- Where the first segment does not climb, none does. -/
theorem IsNormal.isName (h : IsNormal (segment :: segments)) (hne : segment ≠ above) :
    ∀ name ∈ segment :: segments, IsName name := by
  rwa [IsNormal, List.dropWhile_cons_of_neg (by simpa using hne)] at h

theorem IsNormal.isName_of_notMem (h : IsNormal segments) (hnone : above ∉ segments) :
    ∀ name ∈ segments, IsName name := by
  cases segments with
  | nil => simp
  | cons segment segments => exact h.isName fun heq => hnone (heq ▸ List.mem_cons_self)

theorem IsNormal.ne_nil (h : IsNormal segments) : [] ∉ segments := by
  obtain ⟨climbs, names, rfl, hnames⟩ := isNormal_iff.mp h
  intro hmem
  rcases List.mem_append.mp hmem with hmem | hmem
  · exact absurd (List.eq_of_mem_replicate hmem) (by decide)
  · exact (hnames [] hmem).1 rfl

/-! ### Collapsing, one segment at a time -/

theorem collapse_concat (segments : List (List Char)) (segment : List Char) :
    collapse (segments ++ [segment]) = (walk (collapse segments).reverse segment).reverse := by
  simp [collapse]

theorem collapse_concat_skip (h : segment = [] ∨ segment = here) :
    collapse (segments ++ [segment]) = collapse segments := by
  rw [collapse_concat, walk.eq_def, if_pos h, List.reverse_reverse]

theorem collapse_concat_name (h : IsName segment) :
    collapse (segments ++ [segment]) = collapse segments ++ [segment] := by
  rw [collapse_concat, walk.eq_def, if_neg (not_or.mpr ⟨h.1, h.2.1⟩), if_neg h.2.2,
    List.reverse_cons, List.reverse_reverse]

/-- Where nothing but a run of `..` is left, one more makes it longer. -/
theorem collapse_concat_climb (h : collapse segments = List.replicate climbs above) :
    collapse (segments ++ [above]) = List.replicate (climbs + 1) above := by
  rw [collapse_concat, h, walk.eq_def, if_neg (by decide), if_pos rfl, List.reverse_replicate]
  cases climbs with
  | zero => rfl
  | succ climbs =>
    change (above :: List.replicate (climbs + 1) above).reverse = _
    rw [← List.replicate_succ, List.reverse_replicate]

/-- Where a name is left last, `..` takes it away. -/
theorem collapse_concat_leave (h : collapse segments = others ++ [name]) (hname : IsName name) :
    collapse (segments ++ [above]) = others := by
  rw [collapse_concat, h, walk.eq_def, if_neg (by decide), if_pos rfl, List.reverse_concat]
  simp [hname.2.2]

/-- What one more segment makes of collapsed ones. -/
inductive Advance : List (List Char) → List Char → List (List Char) → Prop
  | skip {segments : List (List Char)} {segment : List Char}
      (h : segment = [] ∨ segment = here) : Advance segments segment segments
  | climb (climbs : Nat) :
      Advance (List.replicate climbs above) above (List.replicate (climbs + 1) above)
  | leave {segments : List (List Char)} {name : List Char} (h : IsName name) :
      Advance (segments ++ [name]) above segments
  | descend {segments : List (List Char)} {name : List Char} (h : IsName name) :
      Advance segments name (segments ++ [name])

private theorem advance_of_isNormal (h : IsNormal (collapse segments)) (segment : List Char) :
    Advance (collapse segments) segment (collapse (segments ++ [segment])) := by
  rcases segment_cases segment with hskip | rfl | hname
  · rw [collapse_concat_skip hskip]
    exact .skip hskip
  · obtain ⟨climbs, names, heq, hnames⟩ := isNormal_iff.mp h
    rcases List.eq_nil_or_concat names with rfl | ⟨names, name, rfl⟩
    · rw [List.append_nil] at heq
      rw [collapse_concat_climb heq, heq]
      exact .climb climbs
    · rw [List.concat_eq_append, ← List.append_assoc] at heq
      have hname : IsName name := hnames name (by simp)
      rw [collapse_concat_leave heq hname, heq]
      exact .leave hname
  · rw [collapse_concat_name hname]
    exact .descend hname

theorem Advance.isNormal (h : Advance segments segment others) (hnormal : IsNormal segments) :
    IsNormal others := by
  cases h with
  | skip => exact hnormal
  | climb climbs => simpa using isNormal_append (climbs + 1) (List.forall_mem_nil IsName)
  | leave => exact hnormal.left
  | descend hname =>
    obtain ⟨climbs, names, rfl, hnames⟩ := isNormal_iff.mp hnormal
    rw [List.append_assoc]
    refine isNormal_append climbs fun other hother => ?_
    rcases List.mem_append.mp hother with hother | hother
    · exact hnames other hother
    · exact List.mem_singleton.mp hother ▸ hname

theorem isNormal_collapse (segments : List (List Char)) : IsNormal (collapse segments) := by
  induction segments using List.reverseRecOn with
  | nil => exact fun segment hmem => by cases hmem
  | append_singleton segments segment ih => exact (advance_of_isNormal ih segment).isNormal ih

/-- One more segment, seen from what is left of those before it. -/
theorem advance_collapse (segments : List (List Char)) (segment : List Char) :
    Advance (collapse segments) segment (collapse (segments ++ [segment])) :=
  advance_of_isNormal (isNormal_collapse segments) segment

theorem collapse_replicate (climbs : Nat) :
    collapse (List.replicate climbs above) = List.replicate climbs above := by
  induction climbs with
  | zero => rfl
  | succ climbs ih => rw [List.replicate_succ', collapse_concat_climb ih, List.replicate_succ']

/-- Nothing is left of normal segments to collapse. -/
theorem collapse_of_isNormal (h : IsNormal segments) : collapse segments = segments := by
  obtain ⟨climbs, names, rfl, hnames⟩ := isNormal_iff.mp h
  clear h
  induction names using List.reverseRecOn with
  | nil => simpa using collapse_replicate climbs
  | append_singleton names name ih =>
    rw [← List.append_assoc, collapse_concat_name (hnames name (by simp)),
      ih fun other hother => hnames other (by simp [hother])]

/-- What is left was there before. -/
theorem mem_of_mem_collapse (h : segment ∈ collapse segments) : segment ∈ segments := by
  induction segments using List.reverseRecOn with
  | nil => cases h
  | append_singleton segments last ih =>
    have hadvance := advance_collapse segments last
    generalize collapse segments = before, collapse (segments ++ [last]) = after at hadvance ih h
    cases hadvance with
    | skip => exact List.mem_append_left _ (ih h)
    | climb => exact List.mem_append_right _ (by simp [List.eq_of_mem_replicate h])
    | leave => exact List.mem_append_left _ (ih (List.mem_append_left _ h))
    | descend => exact List.mem_append.mpr ((List.mem_append.mp h).imp_left ih)

/-! ### The directory that segments lead to -/

/-- One step from a directory, given by the stack of the names that lead to it. -/
def enter (stack : List (List Char)) (segment : List Char) : List (List Char) :=
  if segment = [] ∨ segment = here then stack
  else if segment = above then stack.tail
  else segment :: stack

/-- The directory, or the file, that segments lead to from a directory. -/
def follow (stack segments : List (List Char)) : List (List Char) :=
  segments.foldl enter stack

@[simp] theorem follow_nil : follow stack [] = stack := rfl

theorem follow_append (stack segments others : List (List Char)) :
    follow stack (segments ++ others) = follow (follow stack segments) others :=
  List.foldl_append

theorem follow_concat (stack segments : List (List Char)) (segment : List Char) :
    follow stack (segments ++ [segment]) = enter (follow stack segments) segment :=
  follow_append ..

@[simp] theorem follow_empty : follow stack [[]] = stack := rfl

theorem enter_name (h : IsName segment) : enter stack segment = segment :: stack := by
  rw [enter, if_neg (not_or.mpr ⟨h.1, h.2.1⟩), if_neg h.2.2]

theorem enter_above : enter stack above = stack.tail := rfl

theorem enter_skip (h : segment = [] ∨ segment = here) : enter stack segment = stack :=
  if_pos h

/-- Collapsed segments lead to where the segments lead. -/
theorem follow_collapse (stack segments : List (List Char)) :
    follow stack (collapse segments) = follow stack segments := by
  induction segments using List.reverseRecOn with
  | nil => rfl
  | append_singleton segments segment ih =>
    have hadvance := advance_collapse segments segment
    rw [follow_concat, ← ih]
    generalize collapse segments = before, collapse (segments ++ [segment]) = after at hadvance
    cases hadvance with
    | skip hskip => rw [enter_skip hskip]
    | climb climbs => rw [List.replicate_succ', follow_concat]
    | leave hname => rw [follow_concat, enter_name hname, enter_above, List.tail_cons]
    | descend => rw [follow_concat]

/-- A run of `..` climbs, and names descend. -/
theorem follow_normal (climbs : Nat) (hnames : ∀ name ∈ names, IsName name) :
    follow stack (List.replicate climbs above ++ names) = names.reverse ++ stack.drop climbs := by
  induction names using List.reverseRecOn with
  | nil =>
    rw [List.append_nil, List.reverse_nil, List.nil_append]
    induction climbs with
    | zero => rfl
    | succ climbs ih =>
      rw [List.replicate_succ', follow_concat, ih, enter_above, List.tail_drop]
  | append_singleton names name ih =>
    rw [← List.append_assoc, follow_concat, enter_name (hnames name (by simp)),
      ih fun other hother => hnames other (by simp [hother])]
    simp

/-- Segments that lead to the same place from directories of every depth collapse to the same
list. -/
theorem collapse_eq_of_follow (name : List Char)
    (h : ∀ depth, follow (List.replicate depth name) segments =
      follow (List.replicate depth name) others) :
    collapse segments = collapse others := by
  obtain ⟨climbs, names, heq, hnames⟩ := isNormal_iff.mp (isNormal_collapse segments)
  obtain ⟨climbs', names', heq', hnames'⟩ := isNormal_iff.mp (isNormal_collapse others)
  have hfollow (depth : Nat) : names.reverse ++ (List.replicate depth name).drop climbs =
      names'.reverse ++ (List.replicate depth name).drop climbs' := by
    rw [← follow_normal climbs hnames, ← follow_normal climbs' hnames', ← heq, ← heq',
      follow_collapse, follow_collapse, h]
  -- From the root the names show, and from a deep directory the climbs do.
  have hroot : names = names' := by simpa using hfollow 0
  have hdeep : climbs = climbs' := by
    have hlength := congrArg List.length (hfollow (climbs + climbs'))
    simp only [hroot, List.length_append, List.length_drop, List.length_replicate] at hlength
    omega
  rw [heq, heq', hroot, hdeep]

/-- Segments collapse to the same list iff they lead from every directory to the same place. -/
theorem collapse_eq_iff :
    collapse segments = collapse others ↔ ∀ stack, follow stack segments = follow stack others := by
  refine ⟨fun h stack => by rw [← follow_collapse, h, follow_collapse], fun h => ?_⟩
  exact collapse_eq_of_follow here fun depth => h _

end LayeredConfig.Path
