import LayeredConfig.Proofs.Path.Walk
import LayeredConfig.Proofs.Text

/-!
# What cleaning a location keeps

A location is cleaned in two parts. Its prefix stays, and of the rest the leading slashes and the
segments are cleaned apart from each other, so what is left of the rest is a run of slashes and
collapsed segments, or the mark of an empty directory. Everything else is read off that form. The
cleaned rest starts at the root iff the rest does, ends with a slash where the rest does, and leads
to the same place.

The prefix is looked for before the segments are collapsed. Where there is none because a slash
comes before the first colon, and the segments up to that slash go, the segment with the colon comes
first, and the part of it up to the colon is a prefix of the cleaned location.

## Main definitions

* `Path.written`, `Path.segmentsOf`: a path from its segments, and the segments of a path.
* `Path.CleanedTo`: the two forms that a cleaned rest can have.
* `Path.schemeOf`, `Path.restOf`: the prefix of a location, and what follows it.
* `Path.ShowsScheme`: a prefix shows up in the cleaned location.

## Main results

* `Path.cleanedTo_cleanRest`: every cleaned rest has one of the two forms.
* `Path.follow_cleanRest`: the cleaned rest leads to where the rest leads.
* `Path.splitScheme_clean`: the prefix is found again unless another one shows up.
* `Path.clean_keeps`: what cleaning keeps, and the form of what it leaves.
-/

namespace LayeredConfig.Path

variable {path : String} {text body rest label : List Char} {segments : List (List Char)}
  {hasScheme closed : Bool} {slashes : Nat}

/-! ### Paths put together from segments -/

/-- The segments can stand between slashes: none is empty, and none holds a slash. -/
def AreSeparable (segments : List (List Char)) : Prop :=
  ∀ segment ∈ segments, segment ≠ [] ∧ '/' ∉ segment

/-- The text ends with the slash that marks a directory. -/
def isClosed (text : List Char) : Bool :=
  text.getLast? = some '/'

/-- Segments with slashes between them, and with a closing slash if there is anything to close. -/
def written (segments : List (List Char)) (closed : Bool) : List Char :=
  ['/'].intercalate segments ++ if closed && !segments.isEmpty then ['/'] else []

/-- The segments of a path, leading slashes and the closing slash of a directory aside. -/
def segmentsOf (text : List Char) : List (List Char) :=
  let body := text.dropWhile (· == '/')
  if body = [] then [] else (if isClosed body then body.dropLast else body).splitOn '/'

@[simp] theorem written_nil : written [] closed = [] := by
  simp [written]

theorem written_closed (h : segments ≠ []) :
    written segments true = ['/'].intercalate segments ++ ['/'] := by
  simp [written, h]

theorem written_open : written segments false = ['/'].intercalate segments := by
  simp [written]

theorem areSeparable_collapse (text : List Char) :
    AreSeparable (collapse (text.splitOn '/')) := by
  intro segment hmem
  refine ⟨fun h => (isNormal_collapse _).ne_nil (h ▸ hmem), ?_⟩
  exact Text.notMem_of_mem_splitOn (mem_of_mem_collapse hmem)

theorem splitOn_written (closed : Bool) (h : AreSeparable segments) (hne : segments ≠ []) :
    (written segments closed).splitOn '/' = segments ++ if closed then [[]] else [] := by
  have hslash : ∀ segment ∈ segments, '/' ∉ segment := fun segment hmem => (h segment hmem).2
  cases closed with
  | false => simpa [written_open] using List.splitOn_intercalate '/' hslash hne
  | true =>
    rw [written_closed hne, List.splitOn_append_cons_self, List.splitOn_intercalate '/' hslash hne]
    rfl

theorem written_eq_nil_iff (closed : Bool) (h : AreSeparable segments) :
    written segments closed = [] ↔ segments = [] := by
  refine ⟨fun hnil => ?_, fun hnil => by simp [hnil]⟩
  by_contra hne
  have hsplit := splitOn_written closed h hne
  rw [hnil, List.splitOn_nil] at hsplit
  cases segments with
  | nil => exact hne rfl
  | cons segment segments => exact (h segment (by simp)).1 (List.cons.inj hsplit).1.symm

theorem head?_written (h : AreSeparable segments) :
    (written segments closed).head? ≠ some '/' := by
  intro hhead
  obtain ⟨text, htext⟩ := List.head?_eq_some_iff.mp hhead
  cases segments with
  | nil => simp at htext
  | cons segment segments =>
    have hsplit := splitOn_written closed h (by simp)
    rw [htext, List.splitOn_cons_eq_if_modifyHead, if_pos (by simp)] at hsplit
    exact (h segment (by simp)).1 (List.cons.inj hsplit).1.symm

theorem isClosed_written (h : AreSeparable segments) (hne : segments ≠ []) :
    isClosed (written segments closed) = closed := by
  cases closed with
  | true => simp [written_closed hne, isClosed]
  | false =>
    simp only [isClosed, decide_eq_false_iff_not]
    intro hlast
    obtain ⟨text, htext⟩ := List.getLast?_eq_some_iff.mp hlast
    have hsplit := splitOn_written false h hne
    rw [htext, List.splitOn_append_cons_self] at hsplit
    have hmem : [] ∈ segments := by simpa using congrArg ([] ∈ ·) hsplit
    exact (h [] hmem).1 rfl

theorem dropWhile_replicate_append (h : body.head? ≠ some '/') :
    (List.replicate slashes '/' ++ body).dropWhile (· == '/') = body := by
  rw [List.dropWhile_append_of_pos (by simp), List.dropWhile_beq_eq_self_of_head?_ne h]

/-- A text is made of its leading slashes and the rest. -/
theorem exists_replicate (text : List Char) :
    ∃ slashes body, text = List.replicate slashes '/' ++ body ∧ body.head? ≠ some '/' := by
  refine ⟨(text.takeWhile (· == '/')).length, text.dropWhile (· == '/'), ?_, ?_⟩
  · rw [← takeWhile_beq_eq_replicate, List.takeWhile_append_dropWhile]
  · intro hhead
    have hfirst := List.head?_dropWhile_not (· == '/') text
    rw [hhead] at hfirst
    simp at hfirst

/-! ### Cleaning in parts -/

theorem keptSlashes_eq_zero_iff (hasScheme : Bool) (slashes : Nat) :
    keptSlashes hasScheme slashes = 0 ↔ slashes = 0 := by
  unfold keptSlashes
  split
  · rfl
  · split <;> omega

/-- What is left of the segments gets a closing slash where the text had one. -/
private theorem marked_eq {isRoot : Prop} [Decidable isRoot] :
    (if (body.getLast? = some '/' ∨ body = [] ∧ isRoot) ∧
        ['/'].intercalate (collapse (body.splitOn '/')) ≠ [] then
      ['/'].intercalate (collapse (body.splitOn '/')) ++ ['/']
    else ['/'].intercalate (collapse (body.splitOn '/'))) =
      written (collapse (body.splitOn '/')) (isClosed body) := by
  have hempty := written_eq_nil_iff false (areSeparable_collapse body)
  rw [written_open] at hempty
  by_cases hnil : collapse (body.splitOn '/') = []
  · simp [hnil]
  · have hbody : body ≠ [] := fun h => hnil (by rw [h]; rfl)
    simp only [hbody, false_and, or_false, ne_eq, hempty, hnil, not_false_eq_true, and_true]
    cases hclosed : isClosed body with
    | true => rw [if_pos (by simpa [isClosed] using hclosed), written_closed hnil]
    | false => rw [if_neg (by simpa [isClosed] using hclosed), written_open]

theorem cleanRest_relative (h : body.head? ≠ some '/') :
    cleanRest hasScheme body =
      if collapse (body.splitOn '/') = [] ∧ isClosed body then ['.', '/']
      else written (collapse (body.splitOn '/')) (isClosed body) := by
  have hempty := written_eq_nil_iff false (areSeparable_collapse body)
  rw [written_open] at hempty
  have hroot : List.replicate (keptSlashes hasScheme 0) '/' = [] := by
    simp [keptSlashes_eq_zero_iff]
  unfold cleanRest
  simp only [List.dropWhile_beq_eq_self_of_head?_ne h, Nat.sub_self, marked_eq, hroot, hempty]
  simp [isClosed]

theorem cleanRest_rooted (h : body.head? ≠ some '/') (hslashes : slashes ≠ 0) :
    cleanRest hasScheme (List.replicate slashes '/' ++ body) =
      List.replicate (keptSlashes hasScheme slashes) '/' ++
        written (collapse (body.splitOn '/')) (isClosed body) := by
  have hkept : List.replicate (keptSlashes hasScheme slashes) '/' ≠ [] := by
    simpa [keptSlashes_eq_zero_iff] using hslashes
  unfold cleanRest
  simp only [dropWhile_replicate_append h, List.length_append, List.length_replicate,
    Nat.add_sub_cancel, marked_eq]
  rw [if_pos hkept]

/-- What follows a prefix is cleaned to slashes and collapsed segments, or to the mark of an empty
directory. -/
inductive CleanedTo (hasScheme : Bool) : List Char → List Char → Prop
  | marker {body : List Char} (hhead : body.head? ≠ some '/')
      (hnil : collapse (body.splitOn '/') = []) (hclosed : isClosed body = true) :
      CleanedTo hasScheme body ['.', '/']
  | written (slashes : Nat) {body : List Char} (hhead : body.head? ≠ some '/')
      (hkeeps : slashes = 0 → isClosed body = true → collapse (body.splitOn '/') ≠ []) :
      CleanedTo hasScheme (List.replicate slashes '/' ++ body)
        (List.replicate (keptSlashes hasScheme slashes) '/' ++
          written (collapse (body.splitOn '/')) (isClosed body))

theorem cleanedTo_cleanRest (hasScheme : Bool) (rest : List Char) :
    CleanedTo hasScheme rest (cleanRest hasScheme rest) := by
  obtain ⟨slashes, body, rfl, hhead⟩ := exists_replicate rest
  by_cases hslashes : slashes = 0
  · subst hslashes
    rw [List.replicate_zero, List.nil_append, cleanRest_relative hhead]
    split
    · next hmarker => exact .marker hhead hmarker.1 hmarker.2
    · next hmarker =>
      have hcase : CleanedTo hasScheme (List.replicate 0 '/' ++ body) _ :=
        .written 0 hhead fun _ hclosed hnil => hmarker ⟨hnil, hclosed⟩
      rwa [(keptSlashes_eq_zero_iff _ 0).mpr rfl, List.replicate_zero, List.nil_append,
        List.nil_append] at hcase
  · rw [cleanRest_rooted hhead hslashes]
    exact .written slashes hhead fun h => absurd h hslashes

theorem head?_replicate_append (h : body.head? ≠ some '/') :
    (List.replicate slashes '/' ++ body).head? = some '/' ↔ slashes ≠ 0 := by
  cases slashes with
  | zero => simpa using h
  | succ slashes => simp [List.replicate_succ]

/-- The cleaned rest is rooted iff the rest is. -/
theorem head?_cleanRest :
    (cleanRest hasScheme rest).head? = some '/' ↔ rest.head? = some '/' := by
  have hcleaned := cleanedTo_cleanRest hasScheme rest
  generalize cleanRest hasScheme rest = cleaned at hcleaned
  cases hcleaned with
  | marker hhead => simpa using hhead
  | written slashes hhead =>
    rw [head?_replicate_append hhead, head?_replicate_append (head?_written
      (areSeparable_collapse _)), ne_eq, keptSlashes_eq_zero_iff]

theorem isClosed_append (h : text ≠ []) : isClosed (body ++ text) = isClosed text := by
  rw [isClosed, isClosed, List.getLast?_append, List.getLast?_eq_some_getLast h]
  rfl

theorem isClosed_replicate (h : slashes ≠ 0) : isClosed (List.replicate slashes '/') = true := by
  simp [isClosed, List.getLast?_replicate, h]

/-- The cleaned rest is that of a directory where the rest is. -/
theorem isClosed_cleanRest (hasScheme : Bool) (h : isClosed rest = true) :
    isClosed (cleanRest hasScheme rest) = true := by
  have hcleaned := cleanedTo_cleanRest hasScheme rest
  generalize cleanRest hasScheme rest = cleaned at hcleaned
  cases hcleaned with
  | marker => rfl
  | @written slashes body hhead hkeeps =>
    by_cases hnil : collapse (body.splitOn '/') = []
    · -- Nothing but slashes is left, and there are some.
      rw [hnil, written_nil, List.append_nil]
      refine isClosed_replicate fun hkept => ?_
      have hslashes := (keptSlashes_eq_zero_iff _ _).mp hkept
      rw [hslashes] at h
      exact hkeeps hslashes h hnil
    · have hbody : body ≠ [] := fun hbody => hnil (by rw [hbody]; rfl)
      have hsegments := areSeparable_collapse body
      rw [isClosed_append hbody] at h
      rw [isClosed_append ((written_eq_nil_iff _ hsegments).not.mpr hnil),
        isClosed_written hsegments hnil, h]

/-! ### Where a cleaned location leads -/

theorem follow_replicate (stack : List (List Char)) :
    follow stack ((List.replicate slashes '/' ++ body).splitOn '/') =
      follow stack (body.splitOn '/') := by
  induction slashes with
  | zero => rfl
  | succ slashes ih =>
    rw [List.replicate_succ, List.cons_append, List.splitOn_cons_eq_if_modifyHead,
      if_pos (by simp), ← ih]
    rfl

theorem follow_written (stack : List (List Char)) (h : AreSeparable segments) :
    follow stack ((written segments closed).splitOn '/') = follow stack segments := by
  by_cases hne : segments = []
  · subst hne
    rw [written_nil]
    rfl
  · rw [splitOn_written closed h hne, follow_append]
    cases closed <;> rfl

/-- The cleaned rest leads to where the rest leads. -/
theorem follow_cleanRest (stack : List (List Char)) :
    follow stack ((cleanRest hasScheme rest).splitOn '/') = follow stack (rest.splitOn '/') := by
  have hcleaned := cleanedTo_cleanRest hasScheme rest
  generalize cleanRest hasScheme rest = cleaned at hcleaned
  cases hcleaned with
  | marker hhead hnil => rw [← follow_collapse stack (rest.splitOn '/'), hnil]; rfl
  | written slashes => rw [follow_replicate, follow_replicate,
      follow_written stack (areSeparable_collapse _), follow_collapse]

theorem segmentsOf_written (slashes : Nat) (closed : Bool) (h : AreSeparable segments) :
    segmentsOf (List.replicate slashes '/' ++ written segments closed) = segments := by
  unfold segmentsOf
  simp only [dropWhile_replicate_append (head?_written h), written_eq_nil_iff _ h]
  split
  · next hnil => exact hnil.symm
  · next hne =>
    rw [isClosed_written h hne]
    cases closed with
    | true => simpa [written_closed hne, written_open] using splitOn_written false h hne
    | false => simpa using splitOn_written false h hne

/-! ### The prefix of a cleaned location -/

/-- The prefix of a location. -/
def schemeOf (path : String) : List Char :=
  (splitScheme (withSlashes path.toList)).1

/-- What follows the prefix of a location. -/
def restOf (path : String) : List Char :=
  (splitScheme (withSlashes path.toList)).2

theorem toList_clean (path : String) :
    (clean path).toList = schemeOf path ++ cleanRest (!(schemeOf path).isEmpty) (restOf path) :=
  String.toList_ofList

theorem splitScheme_append (hcolon : ':' ∉ label) (hslash : '/' ∉ label) :
    splitScheme (label ++ ':' :: rest) = (label ++ [':'], rest) := by
  rw [splitScheme, Text.cutFirst_eq_some_iff.mpr ⟨rfl, hcolon⟩]
  simp [hslash]

theorem splitScheme_of_notMem (h : ':' ∉ text) : splitScheme text = ([], text) := by
  rw [splitScheme, Text.cutFirst_eq_none_iff.mpr h]

/-- A text has no prefix where no colon comes before the first slash. -/
theorem splitScheme_append_slash (h : ':' ∉ label) :
    splitScheme (label ++ '/' :: rest) = ([], label ++ '/' :: rest) := by
  unfold splitScheme
  split
  · next before after hcut =>
    obtain ⟨heq, -⟩ := Text.cutFirst_eq_some_iff.mp hcut
    have hslash : '/' ∈ before := by
      rcases List.append_eq_append_iff.mp heq with ⟨more, rfl, hmore⟩ | ⟨more, rfl, hmore⟩
      · cases more with
        | nil => simp at hmore
        | cons c more =>
          obtain rfl : '/' = c := (List.cons.inj hmore).1
          simp
      · cases more with
        | nil => simp at hmore
        | cons c more =>
          obtain rfl : ':' = c := (List.cons.inj hmore).1
          exact absurd (by simp) h
    rw [if_pos (by simpa using hslash)]
  · rfl

/-- A prefix and what follows it make up the text, or there is no prefix. -/
theorem splitScheme_cases (text : List Char) :
    splitScheme text = ([], text) ∨
      ∃ label rest, splitScheme text = (label ++ [':'], rest) ∧ text = label ++ ':' :: rest ∧
        ':' ∉ label ∧ '/' ∉ label := by
  unfold splitScheme
  split
  · next before rest hcut =>
    obtain ⟨rfl, hcolon⟩ := Text.cutFirst_eq_some_iff.mp hcut
    split
    · exact .inl rfl
    · next hslash => exact .inr ⟨before, rest, rfl, rfl, hcolon, by simpa using hslash⟩
  · exact .inl rfl

theorem withSlashes_eq_self (h : '\\' ∉ text) : withSlashes text = text := by
  have hsame : ∀ c ∈ text, (if c = '\\' then '/' else c) = id c :=
    fun c hc => if_neg (ne_of_mem_of_not_mem hc h)
  exact (List.map_congr_left hsame).trans (List.map_id text)

theorem backslash_notMem_withSlashes : '\\' ∉ withSlashes text := by
  intro hmem
  obtain ⟨c, -, hc⟩ := List.mem_map.mp hmem
  split at hc
  · cases hc
  · next hne => exact hne hc

theorem mem_written {c : Char} (h : c ∈ written segments closed) :
    c = '/' ∨ ∃ segment ∈ segments, c ∈ segment := by
  rcases List.mem_append.mp h with h | h
  · exact (Text.mem_intercalate_iff.mp h).imp_left And.left
  · split at h
    · exact .inl (List.mem_singleton.mp h)
    · cases h

/-- Cleaning adds no characters but slashes and dots. -/
theorem mem_of_mem_cleanRest {c : Char} (h : c ∈ cleanRest hasScheme rest) :
    c = '/' ∨ c = '.' ∨ c ∈ rest := by
  have hcleaned := cleanedTo_cleanRest hasScheme rest
  generalize cleanRest hasScheme rest = cleaned at hcleaned h
  cases hcleaned with
  | marker =>
    simp only [List.mem_cons, List.not_mem_nil, or_false] at h
    tauto
  | written slashes =>
    rcases List.mem_append.mp h with h | h
    · exact .inl (List.eq_of_mem_replicate h)
    · rcases mem_written h with h | ⟨segment, hsegment, h⟩
      · exact .inl h
      · refine .inr (.inr (List.mem_append_right _ ?_))
        exact Text.mem_of_mem_splitOn (mem_of_mem_collapse hsegment) h

theorem schemeOf_cases (path : String) :
    schemeOf path = [] ∧ restOf path = withSlashes path.toList ∨
      ∃ label, schemeOf path = label ++ [':'] ∧
        withSlashes path.toList = label ++ ':' :: restOf path ∧ ':' ∉ label ∧ '/' ∉ label := by
  unfold schemeOf restOf
  rcases splitScheme_cases (withSlashes path.toList) with h | ⟨label, rest, h, heq, hlabel⟩
  · exact .inl (by rw [h]; exact ⟨rfl, rfl⟩)
  · exact .inr ⟨label, by rw [h], by rw [h]; exact heq, hlabel⟩

theorem schemeOf_append_restOf (path : String) :
    schemeOf path ++ restOf path = withSlashes path.toList := by
  rcases schemeOf_cases path with ⟨hscheme, hrest⟩ | ⟨label, hscheme, hpath, -⟩
  · rw [hscheme, hrest, List.nil_append]
  · rw [hscheme, hpath, List.append_assoc, List.singleton_append]

theorem isClosed_schemeOf (path : String) : isClosed (schemeOf path) = false := by
  rcases schemeOf_cases path with ⟨hscheme, -⟩ | ⟨label, hscheme, -⟩
  · rw [hscheme]
    rfl
  · simp [hscheme, isClosed]

theorem withSlashes_clean (path : String) :
    withSlashes (clean path).toList = (clean path).toList := by
  refine withSlashes_eq_self fun hmem => ?_
  have htext : '\\' ∉ withSlashes path.toList := backslash_notMem_withSlashes
  rw [← schemeOf_append_restOf] at htext
  rw [toList_clean] at hmem
  rcases List.mem_append.mp hmem with hmem | hmem
  · exact htext (List.mem_append_left _ hmem)
  · rcases mem_of_mem_cleanRest hmem with h | h | h
    · cases h
    · cases h
    · exact htext (List.mem_append_right _ h)

/-- The cleaned location begins with a segment that holds a colon, which no prefix or slash came
before. -/
def ShowsScheme (path : String) : Prop :=
  schemeOf path = [] ∧ (restOf path).head? ≠ some '/' ∧
    ∃ first ∈ (collapse ((restOf path).splitOn '/')).head?, ':' ∈ first

theorem written_cons (segment : List Char) (segments : List (List Char)) :
    written (segment :: segments) closed = segment ∨
      ∃ text, written (segment :: segments) closed = segment ++ '/' :: text := by
  cases segments with
  | nil =>
    cases closed with
    | true => exact .inr ⟨[], by simp [written]⟩
    | false => exact .inl (by simp [written])
  | cons next segments => exact .inr ⟨written (next :: segments) closed, by simp [written]⟩

theorem splitScheme_written {first : List Char} (h : AreSeparable (first :: segments)) :
    splitScheme (written (first :: segments) closed) =
      ([], written (first :: segments) closed) ↔ ':' ∉ first := by
  constructor
  · intro hsplit hcolon
    obtain ⟨label, after, rfl, hlabel⟩ := List.eq_append_cons_of_mem hcolon
    have hslash : '/' ∉ label := fun hmem =>
      (h _ List.mem_cons_self).2 (List.mem_append_left _ hmem)
    rcases written_cons (label ++ ':' :: after) segments with heq | ⟨text, heq⟩
    · rw [heq, splitScheme_append hlabel hslash] at hsplit
      simp at hsplit
    · rw [heq, List.append_assoc, List.cons_append, splitScheme_append hlabel hslash] at hsplit
      simp at hsplit
  · intro hcolon
    rcases written_cons first segments with heq | ⟨text, heq⟩
    · rw [heq, splitScheme_of_notMem hcolon]
    · rw [heq, splitScheme_append_slash hcolon]

/-- A prefix is found in what is cleaned without one iff the first segment that is left holds a
colon. -/
theorem splitScheme_cleanRest :
    splitScheme (cleanRest hasScheme rest) = ([], cleanRest hasScheme rest) ↔
      ¬ (rest.head? ≠ some '/' ∧ ∃ first ∈ (collapse (rest.splitOn '/')).head?, ':' ∈ first) := by
  have hcleaned := cleanedTo_cleanRest hasScheme rest
  generalize cleanRest hasScheme rest = cleaned at hcleaned
  cases hcleaned with
  | marker hhead hnil => simp [hnil, splitScheme_of_notMem]
  | @written slashes body hhead hkeeps =>
    by_cases hslashes : slashes = 0
    · have hsegments := areSeparable_collapse body
      rw [hslashes, (keptSlashes_eq_zero_iff _ 0).mpr rfl, List.replicate_zero, List.nil_append,
        List.nil_append]
      cases hleft : collapse (body.splitOn '/') with
      | nil => simp [splitScheme_of_notMem]
      | cons first segments => rw [splitScheme_written (hleft ▸ hsegments)]; simp [hhead]
    · obtain ⟨kept, hkept⟩ := Nat.exists_eq_succ_of_ne_zero
        ((keptSlashes_eq_zero_iff hasScheme slashes).not.mpr hslashes)
      rw [hkept, List.replicate_succ, List.cons_append, ← List.nil_append ('/' :: _),
        splitScheme_append_slash (by simp)]
      simp [(head?_replicate_append hhead).mpr hslashes]

/-- What is left is in normal form, unless it is the mark of a directory to which the rest leads
from itself. -/
theorem isNormal_cleanRest :
    IsNormal (segmentsOf (cleanRest hasScheme rest)) ∨
      cleanRest hasScheme rest = ['.', '/'] ∧ isClosed rest = true ∧
        ∀ stack, follow stack (rest.splitOn '/') = stack := by
  have hcleaned := cleanedTo_cleanRest hasScheme rest
  generalize cleanRest hasScheme rest = cleaned at hcleaned
  cases hcleaned with
  | marker hhead hnil hclosed =>
    exact .inr ⟨rfl, hclosed, fun stack => by rw [← follow_collapse, hnil, follow_nil]⟩
  | written slashes =>
    rw [segmentsOf_written _ _ (areSeparable_collapse _)]
    exact .inl (isNormal_collapse _)

/-- The closing slash of a location is in the rest. -/
theorem isClosed_clean (h : isClosed (withSlashes path.toList) = true) :
    isClosed (clean path).toList = true := by
  rw [← schemeOf_append_restOf] at h
  have hrest : restOf path ≠ [] := by
    intro hnil
    rw [hnil, List.append_nil, isClosed_schemeOf] at h
    cases h
  rw [isClosed_append hrest] at h
  have hcleaned := isClosed_cleanRest (!(schemeOf path).isEmpty) h
  rw [toList_clean, isClosed_append ?_, hcleaned]
  rintro hnil
  rw [hnil] at hcleaned
  cases hcleaned

theorem splitScheme_clean (path : String) :
    splitScheme (clean path).toList =
        (schemeOf path, cleanRest (!(schemeOf path).isEmpty) (restOf path)) ↔
      ¬ ShowsScheme path := by
  rw [toList_clean, ShowsScheme]
  rcases schemeOf_cases path with ⟨hscheme, -⟩ | ⟨label, hscheme, -, hcolon, hslash⟩
  · rw [hscheme, List.nil_append, splitScheme_cleanRest]
    simp
  · rw [hscheme, List.append_assoc, List.singleton_append, splitScheme_append hcolon hslash]
    simp

/-- Cleaning keeps the prefix, whether the rest is rooted, the mark of a directory and where the
rest leads, and brings the segments into normal form. The prefix is found again in the cleaned
location unless the first segment now looks like one. -/
theorem clean_keeps (path : String) :
    ∃ cleaned, (clean path).toList = schemeOf path ++ cleaned ∧
      (cleaned.head? = some '/' ↔ (restOf path).head? = some '/') ∧
      (isClosed (withSlashes path.toList) = true → isClosed (clean path).toList = true) ∧
      (IsNormal (segmentsOf cleaned) ∨ cleaned = ['.', '/'] ∧ isClosed (restOf path) = true ∧
        ∀ stack, follow stack ((restOf path).splitOn '/') = stack) ∧
      (∀ stack, follow stack (cleaned.splitOn '/') = follow stack ((restOf path).splitOn '/')) ∧
      (schemeOf (clean path) = schemeOf path ∧ restOf (clean path) = cleaned ↔
        ¬ ShowsScheme path) := by
  refine ⟨cleanRest (!(schemeOf path).isEmpty) (restOf path), toList_clean path, head?_cleanRest,
    isClosed_clean, isNormal_cleanRest, follow_cleanRest, ?_⟩
  rw [← splitScheme_clean, Prod.ext_iff, schemeOf, restOf, withSlashes_clean]

/-- A file whose name holds a colon is cleaned to a location on the class path. -/
theorem schemeOf_clean_dotted :
    schemeOf "./classpath:app.yml" = [] ∧ clean "./classpath:app.yml" = "classpath:app.yml" ∧
      schemeOf (clean "./classpath:app.yml") = "classpath:".toList := by
  decide +kernel

end LayeredConfig.Path
