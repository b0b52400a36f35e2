import LayeredConfig.Proofs.Path.Clean
import LayeredConfig.Proofs.Path.Lexical
import LayeredConfig.Store

/-!
# Paths of cleaned file locations

What follows `file:` in a location is cleaned as text, segment by segment. Only afterwards a path is
made of it, and then its start has a meaning: two slashes are dropped, `~/` stands for the home
directory, and what starts with neither `~/` nor a slash is seen from the base directory. Collapsing
segments keeps where a path leads, but it can put such a mark at the start, or take one away. So the
cleaned text leads to the same path exactly where its marks are kept.

That two paths are the same is said of their lexical forms. If a mark is not kept, one of the paths
stays in place while the other one moves with the base or with the home directory, and a directory
that is deep enough tells them apart.

## Main definitions

* `KeepsHome`, `KeepsMarkers`: the marks at the start mean the same after cleaning.
* `Store.place`: the path that is opened for what follows `file:` and two slashes.
* `Store.IsCleaned`: a relative path and its cleaned form.

## Main results

* `Store.IsCleaned.lexical_place_iff`: relative paths, where the mark is that of the home directory.
* `Store.filePath_cleanRest_iff`: all that can follow `file:`, leading slashes included.
* `Store.lexical_filePath_of_rooted`: a plain path from the root leads to itself.
-/

namespace LayeredConfig

open LayeredConfig.Path

/-! ### The home directory -/

/-- What follows the mark of the home directory at the start of a path. -/
def afterHome (text : List Char) : Option (List Char) :=
  Text.afterStart? ['~', '/'] text

/-- A relative path means the same once it is cleaned. Either it begins with the mark of the home
directory and keeps it: it does not start anew at the root after the mark, does not climb out of the
home directory, and names the home directory itself only with a closing slash. Or it neither begins
with the mark nor does so once it is cleaned. -/
def KeepsHome (body : List Char) : Prop :=
  (∀ below ∈ afterHome body, below.head? ≠ some '/' ∧ above ∉ collapse (below.splitOn '/') ∧
    (collapse (below.splitOn '/') = [] → isClosed body = true)) ∧
  (afterHome body = none → afterHome (written (collapse (body.splitOn '/')) (isClosed body)) = none)

instance (body : List Char) : Decidable (KeepsHome body) :=
  inferInstanceAs (Decidable (_ ∧ _))

/-- What follows `file:` in a location, or a plain path, means the same once it is cleaned. A plain
path does not begin with exactly two slashes, which would be dropped after `file:`, and a path that
is relative apart from such slashes keeps its meaning. -/
def KeepsMarkers (isUrl : Bool) (rest : List Char) : Prop :=
  let slashes := (rest.takeWhile (· == '/')).length
  (slashes = 2 → isUrl = true) ∧
    (slashes = 0 ∨ slashes = 2 → KeepsHome (rest.dropWhile (· == '/')))

instance (isUrl : Bool) (rest : List Char) : Decidable (KeepsMarkers isUrl rest) :=
  inferInstanceAs (Decidable (_ ∧ _))

theorem keepsMarkers_iff (isUrl : Bool) (slashes : Nat) {body : List Char}
    (h : body.head? ≠ some '/') :
    KeepsMarkers isUrl (List.replicate slashes '/' ++ body) ↔
      (slashes = 2 → isUrl = true) ∧ (slashes = 0 ∨ slashes = 2 → KeepsHome body) := by
  have hlength : ((List.replicate slashes '/' ++ body).takeWhile (· == '/')).length = slashes := by
    have hsplit := List.takeWhile_append_dropWhile (p := (· == '/'))
      (l := List.replicate slashes '/' ++ body)
    rw [dropWhile_replicate_append h] at hsplit
    simpa using congrArg List.length (List.append_cancel_right hsplit)
  rw [KeepsMarkers, hlength, dropWhile_replicate_append h]

theorem afterHome_eq_some_iff {text below : List Char} :
    afterHome text = some below ↔ text = '~' :: '/' :: below :=
  Text.afterStart?_eq_some_iff

namespace Store

variable {base home : String} {text cleaned body rest below : List Char}
  {segments : List (List Char)} {closed : Bool} {slashes : Nat}

/-- The path that is opened for what stands after `file:` and, where there is one, `//`. -/
def place (base : String) (home : Option String) (text : List Char) : String :=
  Path.join base (expandHome home (String.ofList text))

theorem place_of_afterHome_none (home : Option String) (h : afterHome text = none) :
    place base home text = Path.join base (String.ofList text) := by
  unfold place expandHome
  rw [String.toList_ofList]
  unfold afterHome at h
  rw [h]

theorem place_none : place base none text = Path.join base (String.ofList text) := by
  unfold place expandHome
  split
  · next heq => cases heq
  · rfl

theorem place_home (h : afterHome text = some below) :
    place base (some home) text = Path.join base (Path.join home (String.ofList below)) := by
  unfold place expandHome
  rw [String.toList_ofList]
  unfold afterHome at h
  rw [h]

theorem isAbsolute_ofList : isAbsolute (String.ofList text) = true ↔ text.head? = some '/' := by
  rw [isAbsolute, String.toList_ofList, decide_eq_true_eq]

theorem isAbsolute_ofList_eq_false (h : text.head? ≠ some '/') :
    isAbsolute (String.ofList text) = false :=
  Bool.eq_false_iff.mpr (isAbsolute_ofList.not.mpr h)

/-- Texts that lead to the same places and are both rooted, or both not, lead the same way. -/
theorem sameWay_ofList (hrooted : text.head? = some '/' ↔ body.head? = some '/')
    (hfollow : ∀ stack, follow stack (text.splitOn '/') = follow stack (body.splitOn '/')) :
    SameWay (String.ofList text) (String.ofList body) := by
  refine ⟨Bool.eq_iff_iff.mpr ?_, fun stack => ?_⟩
  · rw [isAbsolute_ofList, isAbsolute_ofList, hrooted]
  · rw [String.toList_ofList, String.toList_ofList, hfollow]

/-! ### Relative paths -/

theorem splitOn_home (below : List Char) :
    ('~' :: '/' :: below).splitOn '/' = ['~'] :: below.splitOn '/' := by
  have hname : '/' ∉ ['~'] := by decide
  exact List.splitOn_append_cons_self_of_not_mem hname below

/-- Where what stands below the home directory does not climb, the mark of the home directory is
left at the start. -/
theorem collapse_home (h : above ∉ collapse (below.splitOn '/')) :
    collapse (('~' :: '/' :: below).splitOn '/') = ['~'] :: collapse (below.splitOn '/') := by
  have hnames := (isNormal_collapse (below.splitOn '/')).isName_of_notMem h
  have hnormal : IsNormal (['~'] :: collapse (below.splitOn '/')) :=
    isNormal_append 0 (List.forall_mem_cons.mpr ⟨by decide, hnames⟩)
  rw [splitOn_home, ← collapse_of_isNormal hnormal]
  refine collapse_eq_iff.mpr fun stack => ?_
  exact (follow_collapse (enter stack ['~']) (below.splitOn '/')).symm

/-- The part of a cleaned path that stands below the home directory. -/
theorem splitOn_of_afterHome (h : AreSeparable segments)
    (hhome : afterHome (written segments closed) = some below) :
    ∃ more, segments = ['~'] :: more ∧ (more ≠ [] ∨ closed = true) ∧ below.head? ≠ some '/' ∧
      ∀ stack, follow stack (below.splitOn '/') = follow stack more := by
  rw [afterHome_eq_some_iff] at hhome
  cases segments with
  | nil => simp at hhome
  | cons first more =>
    have hsplit := splitOn_written closed h (by simp)
    rw [hhome, splitOn_home, List.cons_append, List.cons.injEq] at hsplit
    obtain ⟨rfl, hbelow⟩ := hsplit
    have hmore : AreSeparable more := fun segment hmem => h segment (List.mem_cons_of_mem _ hmem)
    refine ⟨more, rfl, ?_, ?_, fun stack => ?_⟩
    · by_contra hnone
      obtain ⟨rfl, hopen⟩ : more = [] ∧ closed = false := by simpa using hnone
      simp [hopen] at hbelow
    · intro hhead
      obtain ⟨text, rfl⟩ := List.head?_eq_some_iff.mp hhead
      rw [List.splitOn_cons_eq_if_modifyHead, if_pos (by simp)] at hbelow
      cases more with
      | nil =>
        cases closed with
        | true => simp at hbelow
        | false => simp at hbelow
      | cons segment more => exact (hmore segment (by simp)).1 (List.cons.inj hbelow).1.symm
    · rw [hbelow, follow_append]
      cases closed <;> rfl

theorem written_cons_slash (segment : List Char) (h : segments ≠ [] ∨ closed = true) :
    written (segment :: segments) closed = segment ++ '/' :: written segments closed := by
  cases segments with
  | nil =>
    obtain rfl : closed = true := h.resolve_left (by simp)
    simp [written]
  | cons next segments => simp [written]

/-- A cleaned relative path. -/
structure IsCleaned (body cleaned : List Char) : Prop where
  body_relative : body.head? ≠ some '/'
  relative : cleaned.head? ≠ some '/'
  follow : ∀ stack, follow stack (cleaned.splitOn '/') = follow stack (body.splitOn '/')
  afterHome : afterHome cleaned = afterHome (written (collapse (body.splitOn '/')) (isClosed body))

theorem IsCleaned.sameWay (h : IsCleaned body cleaned) :
    SameWay (String.ofList cleaned) (String.ofList body) :=
  sameWay_ofList (iff_of_false h.relative h.body_relative) h.follow

/-- Below a home directory that starts at the root, the base does not matter. -/
theorem place_of_isAbsolute (hhome : isAbsolute home = true) (h : afterHome text = some below) :
    place base (some home) text = Path.join home (String.ofList below) := by
  rw [place_home h, join_of_isAbsolute (isAbsolute_join_of_base hhome _)]

/-- Where a cleaned path keeps its meaning, it leads to the same place. -/
theorem IsCleaned.lexical_place_eq (h : IsCleaned body cleaned) (hkeeps : KeepsHome body)
    (base : String) (home : Option String) :
    lexical (place base home cleaned) = lexical (place base home body) := by
  cases hbody : LayeredConfig.afterHome body with
  | none =>
    have hcleaned : LayeredConfig.afterHome cleaned = none := by rw [h.afterHome, hkeeps.2 hbody]
    rw [place_of_afterHome_none home hbody, place_of_afterHome_none home hcleaned]
    exact (h.sameWay.join base).lexical_eq
  | some below =>
    obtain ⟨hrelative, hclimbs, hclosed⟩ := hkeeps.1 below hbody
    cases home with
    | none =>
      rw [place_none, place_none]
      exact (h.sameWay.join base).lexical_eq
    | some home =>
      have hcleaned : LayeredConfig.afterHome cleaned =
          some (written (collapse (below.splitOn '/')) (isClosed body)) := by
        have hmore : collapse (below.splitOn '/') ≠ [] ∨ isClosed body = true :=
          or_iff_not_imp_left.mpr fun hnil => hclosed (not_not.mp hnil)
        rw [h.afterHome, afterHome_eq_some_iff, afterHome_eq_some_iff.mp hbody,
          collapse_home hclimbs, ← afterHome_eq_some_iff.mp hbody]
        exact written_cons_slash ['~'] hmore
      have hbelow : SameWay (String.ofList (written (collapse (below.splitOn '/')) (isClosed body)))
          (String.ofList below) := by
        have hsegments := areSeparable_collapse below
        refine sameWay_ofList (iff_of_false (head?_written hsegments) hrelative) fun stack => ?_
        rw [follow_written stack hsegments, follow_collapse]
      rw [place_home hcleaned, place_home hbody]
      exact ((hbelow.join home).join base).lexical_eq

/-- A cleaned path that leads to the same place from every base and for every home directory has
kept its meaning. -/
theorem IsCleaned.keepsHome (h : IsCleaned body cleaned)
    (hsame : ∀ base home, lexical (place base home cleaned) = lexical (place base home body)) :
    KeepsHome body := by
  have hroot : isAbsolute "/" = true := rfl
  have hbody := isAbsolute_ofList_eq_false h.body_relative
  have hrelative := isAbsolute_ofList_eq_false h.relative
  refine ⟨fun below hbelow => ?_, fun hnone => ?_⟩
  · cases hcleaned : LayeredConfig.afterHome cleaned with
    | none =>
      -- Only the cleaned path depends on the base.
      obtain ⟨base, -, hne⟩ := exists_lexical_join_ne hrelative
        (lexical (Path.join "/" (String.ofList below)))
      have heq := hsame base (some "/")
      rw [place_of_afterHome_none _ hcleaned, place_of_isAbsolute hroot hbelow] at heq
      exact absurd heq hne
    | some left =>
      have hhome := hcleaned
      rw [h.afterHome] at hhome
      obtain ⟨more, hmore, hopen, hleft, hfollow⟩ :=
        splitOn_of_afterHome (areSeparable_collapse body) hhome
      have hall (home : String) (habsolute : isAbsolute home = true) :
          lexical (Path.join home (String.ofList left)) =
            lexical (Path.join home (String.ofList below)) := by
        have heq := hsame "" (some home)
        rwa [place_of_isAbsolute habsolute hcleaned, place_of_isAbsolute habsolute hbelow] at heq
      have hleft := isAbsolute_ofList_eq_false hleft
      have hdescends : below.head? ≠ some '/' := by
        -- Otherwise only the cleaned path depends on the home directory.
        intro hhead
        obtain ⟨home, habsolute, hne⟩ := exists_lexical_join_ne hleft
          (lexical (String.ofList below))
        have heq := hall home habsolute
        rw [join_of_isAbsolute (isAbsolute_ofList.mpr hhead)] at heq
        exact hne heq
      have hnames : ∀ name ∈ ['~'] :: more, IsName name := by
        have hnormal : IsNormal (['~'] :: more) := hmore ▸ isNormal_collapse _
        exact hnormal.isName (by decide)
      have hsame : collapse (below.splitOn '/') = more := by
        have hjoins := collapse_eq_of_lexical_join hleft (isAbsolute_ofList_eq_false hdescends) hall
        rw [String.toList_ofList, String.toList_ofList] at hjoins
        rw [← hjoins, collapse_eq_iff.mpr hfollow]
        exact collapse_of_isNormal (isNormal_append 0 fun name hname =>
          hnames name (List.mem_cons_of_mem _ hname))
      rw [hsame]
      refine ⟨hdescends, fun hmem => ?_, fun hnil => hopen.resolve_left (not_not.mpr hnil)⟩
      exact (hnames above (List.mem_cons_of_mem _ hmem)).2.2 rfl
  · by_contra hsome
    obtain ⟨below, hbelow⟩ := Option.ne_none_iff_exists'.mp hsome
    -- Only the path as it is written depends on the base.
    obtain ⟨base, -, hne⟩ := exists_lexical_join_ne hbody
      (lexical (Path.join "/" (String.ofList below)))
    have heq := hsame base (some "/")
    rw [place_of_isAbsolute hroot (h.afterHome.trans hbelow),
      place_of_afterHome_none _ hnone] at heq
    exact hne heq.symm

theorem IsCleaned.lexical_place_iff (h : IsCleaned body cleaned) :
    (∀ base home, lexical (place base home cleaned) = lexical (place base home body)) ↔
      KeepsHome body :=
  ⟨h.keepsHome, fun hkeeps => h.lexical_place_eq hkeeps⟩

/-! ### Leading slashes -/

/-- What stands after `file:` without the two slashes that may follow it. -/
def bare (rest : List Char) : List Char :=
  (Text.afterStart? ['/', '/'] rest).getD rest

theorem filePath_eq (base : String) (home : Option String) (rest : List Char) :
    filePath base home rest = place base home (bare rest) := rfl

theorem bare_replicate (slashes : Nat) (h : body.head? ≠ some '/') :
    bare (List.replicate slashes '/' ++ body) =
      List.replicate (if 2 ≤ slashes then slashes - 2 else slashes) '/' ++ body := by
  unfold bare
  split
  · next hslashes =>
    have hstart : List.replicate slashes '/' ++ body =
        ['/', '/'] ++ (List.replicate (slashes - 2) '/' ++ body) := by
      obtain ⟨more, rfl⟩ := Nat.exists_eq_add_of_le' hslashes
      rfl
    rw [Text.afterStart?_eq_some_iff.mpr hstart, Option.getD_some]
  · next hslashes =>
    cases hafter : Text.afterStart? ['/', '/'] (List.replicate slashes '/' ++ body) with
    | none => rfl
    | some after =>
      have hstart := Text.afterStart?_eq_some_iff.mp hafter
      match slashes with
      | 0 => simp [show body = '/' :: '/' :: after from hstart] at h
      | 1 => simp [show body = '/' :: after from (List.cons.inj hstart).2] at h
      | more + 2 => omega

theorem place_rooted (home : Option String) (h : text.head? = some '/') :
    place base home text = String.ofList text := by
  have hhome : LayeredConfig.afterHome text = none := by
    obtain ⟨rest, rfl⟩ := List.head?_eq_some_iff.mp h
    rfl
  rw [place_of_afterHome_none home hhome, join_of_isAbsolute (isAbsolute_ofList.mpr h)]

/-- Where both texts are rooted, it does not matter by how many slashes. -/
theorem lexical_place_rooted (kept : Nat) (hkept : kept ≠ 0) (hslashes : slashes ≠ 0)
    (h : IsCleaned body cleaned) (base : String) (home : Option String) :
    lexical (place base home (List.replicate kept '/' ++ cleaned)) =
      lexical (place base home (List.replicate slashes '/' ++ body)) := by
  have hleft := (head?_replicate_append h.relative).mpr hkept
  have hright := (head?_replicate_append h.body_relative).mpr hslashes
  rw [place_rooted home hleft, place_rooted home hright]
  refine (sameWay_ofList (iff_of_true hleft hright) fun stack => ?_).lexical_eq
  rw [follow_replicate, follow_replicate, h.follow]

/-- A path that is rooted once it is cleaned does not lead below every base any more. -/
theorem exists_lexical_place_ne (hrooted : text.head? = some '/') (h : body.head? ≠ some '/') :
    ∃ base, lexical (place base none text) ≠ lexical (place base none body) := by
  obtain ⟨base, -, hne⟩ := exists_lexical_join_ne (isAbsolute_ofList_eq_false h)
    (lexical (String.ofList text))
  refine ⟨base, ?_⟩
  rw [place_rooted none hrooted, place_none]
  exact hne.symm

theorem isCleaned_written (h : body.head? ≠ some '/') :
    IsCleaned body (written (collapse (body.splitOn '/')) (isClosed body)) where
  body_relative := h
  relative := head?_written (areSeparable_collapse body)
  follow stack := by rw [follow_written stack (areSeparable_collapse body), follow_collapse]
  afterHome := rfl

theorem isCleaned_marker (h : body.head? ≠ some '/') (hnil : collapse (body.splitOn '/') = []) :
    IsCleaned body ['.', '/'] where
  body_relative := h
  relative := by decide
  follow stack := by
    rw [← follow_collapse stack (body.splitOn '/'), hnil]
    rfl
  afterHome := by
    rw [hnil, written_nil]
    rfl

/-- A plain path that starts at the root leads to itself, however many slashes it starts with. -/
theorem lexical_filePath_of_rooted (base : String) (home : Option String)
    (h : rest.head? = some '/') :
    lexical (filePath base home (cleanRest false rest)) = lexical (String.ofList rest) := by
  have hrooted : (cleanRest false rest).head? = some '/' := head?_cleanRest.mpr h
  have hbare : bare (cleanRest false rest) = cleanRest false rest := by
    have hcleaned := cleanedTo_cleanRest false rest
    generalize cleanRest false rest = cleaned at hcleaned
    cases hcleaned with
    | marker hhead => exact absurd h hhead
    | @written slashes body hhead =>
      have hslashes := (head?_replicate_append hhead).mp h
      have hkept : keptSlashes false slashes = 1 := by
        simp only [keptSlashes]
        grind
      rw [hkept, bare_replicate 1 (head?_written (areSeparable_collapse body))]
      rfl
  rw [filePath_eq, hbare, place_rooted home hrooted]
  exact (sameWay_ofList (iff_of_true hrooted h) follow_cleanRest).lexical_eq

/-- What is opened for a cleaned location is what is opened for the location as it is written, up
to lexical normalisation, iff its markers mean the same. -/
theorem filePath_cleanRest_iff (isUrl : Bool) (rest : List Char) :
    (∀ base home, lexical (filePath base home (cleanRest isUrl rest)) =
      lexical (filePath base home rest)) ↔ KeepsMarkers isUrl rest := by
  have hcleaned := cleanedTo_cleanRest isUrl rest
  generalize cleanRest isUrl rest = cleaned at hcleaned
  simp only [filePath_eq]
  cases hcleaned with
  | marker hhead hnil =>
    have hmarkers := keepsMarkers_iff isUrl 0 hhead
    have hbare := bare_replicate 0 hhead
    rw [List.replicate_zero, List.nil_append] at hmarkers hbare
    have hmarker : bare ['.', '/'] = ['.', '/'] := rfl
    rw [hmarkers, hbare, hmarker]
    simpa using (isCleaned_marker hhead hnil).lexical_place_iff
  | @written slashes body hhead =>
    have hbody := isCleaned_written hhead
    rw [keepsMarkers_iff isUrl slashes hhead, bare_replicate slashes hhead,
      bare_replicate _ hbody.relative]
    match slashes with
    | 0 => simpa [keptSlashes] using hbody.lexical_place_iff
    | 1 =>
      have hsame := lexical_place_rooted 1 Nat.one_ne_zero Nat.one_ne_zero hbody
      exact iff_of_true hsame (by simp)
    | 2 =>
      cases isUrl with
      | true => simpa [keptSlashes] using hbody.lexical_place_iff
      | false =>
        -- One slash is kept, and none of them is one of the two of a URL.
        refine iff_of_false (fun hsame => ?_) (by simp)
        obtain ⟨base, hne⟩ := exists_lexical_place_ne
          ((head?_replicate_append hbody.relative).mpr Nat.one_ne_zero) hhead
        exact hne (hsame base none)
    | more + 3 =>
      refine iff_of_true ?_ (by simp)
      have hkept : 1 = if 2 ≤ keptSlashes isUrl (more + 3) then keptSlashes isUrl (more + 3) - 2
          else keptSlashes isUrl (more + 3) := by
        cases isUrl <;> simp [keptSlashes]
      rw [← hkept]
      exact lexical_place_rooted 1 Nat.one_ne_zero (by simp) hbody

example : KeepsMarkers true "~/conf/../".toList ∧ ¬ KeepsMarkers true "~/conf/..".toList ∧
    ¬ KeepsMarkers true "./~/conf/".toList ∧ ¬ KeepsMarkers false "//~/conf/".toList := by
  decide

theorem afterStart?_file (rest : List Char) :
    Text.afterStart? filePrefix.toList (filePrefix ++ String.ofList rest).toList = some rest := by
  rw [Text.afterStart?_eq_some_iff, String.toList_append, String.toList_ofList]

/-- A location in the file system leads to a path whatever the class path is. -/
theorem path?_file (tree : FileTree) (base : String) (classpath : List String)
    (home : Option String) (rest : List Char) :
    path? tree base classpath home (filePrefix ++ String.ofList rest) =
      some (filePath base home rest) := by
  rw [path?, afterStart?_file]

end Store

end LayeredConfig
