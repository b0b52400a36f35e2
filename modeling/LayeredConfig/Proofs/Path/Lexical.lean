import LayeredConfig.Path
import LayeredConfig.Proofs.Path.Walk

/-!
# The lexical form of a path

A path that starts at the root leads to one place, and `..` stays at the root. Any other path leads
from each directory to another place. Its lexical form shows where it leads, without its empty
segments and dots and with `..` carried out as far as that can be done without knowing what there
is.

## Main definitions

* `Path.lexical`: the lexical form of a path.
* `Path.SameWay`: two paths lead to the same place from every directory.

## Main results

* `Path.lexical_eq_iff`: what two paths with the same lexical form have in common.
* `Path.SameWay.join`: paths below a base lead the same way if they do by themselves.
* `Path.exists_lexical_join_ne`: a path that does not start at the root depends on the base.
-/

namespace LayeredConfig.Path

variable {base path other : String} {stack : List (List Char)}

/-- Whether a path starts at the root, and the segments that are left of it. -/
def lexical (path : String) : Bool × List (List Char) :=
  (isAbsolute path, if isAbsolute path then (follow [] (path.toList.splitOn '/')).reverse
    else collapse (path.toList.splitOn '/'))

/-- Both paths start at the root, or neither does, and they lead from every directory to the same
place. -/
structure SameWay (path other : String) : Prop where
  rooted : isAbsolute path = isAbsolute other
  follow : ∀ stack, follow stack (path.toList.splitOn '/') = follow stack (other.toList.splitOn '/')

/-- Two paths have the same lexical form iff they lead to the same place, from the root where they
start there and from every directory where they do not. -/
theorem lexical_eq_iff : lexical path = lexical other ↔
    isAbsolute path = isAbsolute other ∧ ∀ stack, (isAbsolute path = true → stack = []) →
      follow stack (path.toList.splitOn '/') = follow stack (other.toList.splitOn '/') := by
  rw [lexical, lexical, Prod.mk.injEq]
  refine and_congr_right fun hrooted => ?_
  rw [← hrooted]
  cases isAbsolute path with
  | true => simp
  | false => simpa using collapse_eq_iff

theorem SameWay.lexical_eq (h : SameWay path other) : lexical path = lexical other :=
  lexical_eq_iff.mpr ⟨h.rooted, fun stack _ => h.follow stack⟩

/-! ### Paths below a base -/

theorem follow_append_slash (stack : List (List Char)) (text rest : List Char) :
    follow stack ((text ++ '/' :: rest).splitOn '/') =
      follow (follow stack (text.splitOn '/')) (rest.splitOn '/') := by
  rw [List.splitOn_append_cons_self, follow_append]

theorem join_of_isAbsolute (h : isAbsolute path = true) : join base path = path :=
  if_pos h

theorem join_cases (base : String) (h : isAbsolute path = false) :
    base.toList = [] ∧ (join base path).toList = path.toList ∨
      (∃ before, base.toList = before ++ ['/'] ∧
        (join base path).toList = before ++ '/' :: path.toList) ∨
      base.toList ≠ [] ∧ (join base path).toList = base.toList ++ '/' :: path.toList := by
  rw [join, if_neg (by simp [h])]
  split
  · next hends =>
    rcases Bool.or_eq_true_iff.mp hends with hempty | hslash
    · have hnil : base.toList = [] := by simpa using hempty
      exact .inl ⟨hnil, by rw [String.toList_append, hnil, List.nil_append]⟩
    · obtain ⟨before, hbefore⟩ := List.getLast?_eq_some_iff.mp (of_decide_eq_true hslash)
      refine .inr (.inl ⟨before, hbefore, ?_⟩)
      rw [String.toList_append, hbefore, List.append_assoc, List.singleton_append]
  · next hends =>
    refine .inr (.inr ⟨fun hnil => hends (by simp [String.toList_eq_nil_iff.mp hnil]), ?_⟩)
    simp [String.toList_append]

theorem isAbsolute_join (h : isAbsolute path = false) :
    isAbsolute (join base path) = isAbsolute base := by
  have hhead : path.toList.head? ≠ some '/' := of_decide_eq_false h
  unfold isAbsolute
  rcases join_cases base h with ⟨hbase, hjoin⟩ | ⟨before, hbase, hjoin⟩ | ⟨hbase, hjoin⟩
  · simp [hbase, hjoin, hhead]
  · rw [hbase, hjoin]
    cases before <;> simp
  · obtain ⟨c, text, htext⟩ := List.exists_cons_of_ne_nil hbase
    simp [hjoin, htext]

/-- The way below a base goes to the base first. -/
theorem follow_join (h : isAbsolute path = false) (stack : List (List Char)) :
    follow stack ((join base path).toList.splitOn '/') =
      follow (follow stack (base.toList.splitOn '/')) (path.toList.splitOn '/') := by
  rcases join_cases base h with ⟨hbase, hjoin⟩ | ⟨before, hbase, hjoin⟩ | ⟨hbase, hjoin⟩
  · rw [hbase, hjoin]
    rfl
  · rw [hbase, hjoin, follow_append_slash, follow_append_slash]
    rfl
  · rw [hjoin, follow_append_slash]

theorem isAbsolute_join_of_base (h : isAbsolute base = true) (path : String) :
    isAbsolute (join base path) = true := by
  cases hpath : isAbsolute path with
  | true => rw [join_of_isAbsolute hpath, hpath]
  | false => rw [isAbsolute_join hpath, h]

theorem SameWay.join (h : SameWay path other) (base : String) :
    SameWay (join base path) (join base other) := by
  cases hpath : isAbsolute path with
  | true =>
    have hother : isAbsolute other = true := h.rooted ▸ hpath
    rwa [join_of_isAbsolute hpath, join_of_isAbsolute hother]
  | false =>
    have hother : isAbsolute other = false := h.rooted ▸ hpath
    refine ⟨by rw [isAbsolute_join hpath, isAbsolute_join hother], fun stack => ?_⟩
    rw [follow_join hpath, follow_join hother, h.follow]

theorem lexical_join_of_base (hbase : isAbsolute base = true) (h : isAbsolute path = false) :
    lexical (join base path) = (true, (follow (follow [] (base.toList.splitOn '/'))
      (path.toList.splitOn '/')).reverse) := by
  rw [lexical, isAbsolute_join h, hbase, if_pos rfl, follow_join h]

/-! ### Deep directories -/

/-- A directory as deep below the root as one likes. -/
def deep (depth : Nat) : String :=
  String.ofList ('/' :: (List.replicate depth ['x', '/']).flatten)

theorem isAbsolute_deep (depth : Nat) : isAbsolute (deep depth) = true := by
  simp [isAbsolute, deep]

theorem follow_deep (depth : Nat) :
    follow [] ((deep depth).toList.splitOn '/') = List.replicate depth ['x'] := by
  have hnames (stack : List (List Char)) :
      follow stack ((List.replicate depth ['x', '/']).flatten.splitOn '/') =
        List.replicate depth ['x'] ++ stack := by
    induction depth generalizing stack with
    | zero => rfl
    | succ depth ih =>
      have hdeeper : (List.replicate (depth + 1) ['x', '/']).flatten =
          ['x'] ++ '/' :: (List.replicate depth ['x', '/']).flatten := rfl
      rw [hdeeper, follow_append_slash, ih, List.replicate_succ', List.append_assoc]
      rfl
  rw [deep, String.toList_ofList, ← List.nil_append ('/' :: _), follow_append_slash]
  simpa using hnames []

/-- Where a path leads that does not start at the root cannot be told without the base. -/
theorem exists_lexical_join_ne (h : isAbsolute path = false) (form : Bool × List (List Char)) :
    ∃ base, isAbsolute base = true ∧ lexical (join base path) ≠ form := by
  obtain ⟨climbs, names, hleft, hnames⟩ :=
    isNormal_iff.mp (isNormal_collapse (path.toList.splitOn '/'))
  refine ⟨deep (climbs + form.2.length + 1), isAbsolute_deep _, fun heq => ?_⟩
  have hlength := congrArg (List.length ∘ Prod.snd) heq
  rw [lexical_join_of_base (isAbsolute_deep _) h, follow_deep, ← follow_collapse, hleft,
    follow_normal climbs hnames] at hlength
  simp at hlength
  omega

/-- Paths that lead to the same place below every base have the same segments left. -/
theorem collapse_eq_of_lexical_join (hpath : isAbsolute path = false)
    (hother : isAbsolute other = false)
    (h : ∀ base, isAbsolute base = true → lexical (join base path) = lexical (join base other)) :
    collapse (path.toList.splitOn '/') = collapse (other.toList.splitOn '/') := by
  refine collapse_eq_of_follow ['x'] fun depth => ?_
  have heq := h (deep depth) (isAbsolute_deep depth)
  rw [lexical_join_of_base (isAbsolute_deep depth) hpath,
    lexical_join_of_base (isAbsolute_deep depth) hother, follow_deep] at heq
  simpa using heq

end LayeredConfig.Path
