import LayeredConfig.Proofs.Order
import LayeredConfig.Proofs.Placeholder.Fixpoint
import Mathlib.Data.List.Induction

/-!
# The order in which locations are probed

The keys of a chain, or else the configured text, mention locations from the lowest to the highest
precedence. Duplicates go three times on the way to the probed list: among the items as they are
written, among the cleaned locations of one key, and across the two lists. Different spellings can
lead to one cleaned location, so what a spelling displaces depends on when duplicates go. It makes
no difference in the end: erasing duplicates before a map, or in the parts of a list, is undone by
erasing them once more afterwards. So one rule is left. Each list is turned round, and every
location stays where its last mention stood.

## Main definitions

* `SearchPath.probedForm`: a mentioned location as it is probed.
* `SearchPath.mentionedBy`, `SearchPath.mentionedOtherwise`: the mentioned locations in the order
  in which they are written.
* `SearchPath.LastMentionFirst`: the order that the last mentions in one list ask for.

## Main results

* `eraseDups_map_eraseDups`, `eraseDups_append_eraseDups`: erasing duplicates early.
* `SearchPath.probedLocations_eq_mentioned`: the probed locations from the mentioned ones.
-/

namespace LayeredConfig

/-! ### Erasing duplicates early -/

section EraseDups

variable {α β : Type} [BEq α] [LawfulBEq α] [BEq β] [LawfulBEq β]

/-- Things that are equal only after a map lose their duplicates after it. -/
theorem eraseDups_map_eraseDups (f : α → β) (l : List α) :
    (l.eraseDups.map f).eraseDups = (l.map f).eraseDups := by
  induction l using List.reverseRecOn with
  | nil => rfl
  | append_singleton l c ih =>
    rw [List.map_append, List.map_singleton, eraseDups_concat l, eraseDups_concat (l.map f)]
    by_cases hc : c ∈ l
    · rw [if_pos hc, if_pos (List.mem_map_of_mem hc), ih]
    · rw [if_neg hc, List.map_append, List.map_singleton, eraseDups_concat, ih]
      exact if_congr (by simp only [List.mem_map, List.mem_eraseDups]) rfl rfl

/-- Parts of a list may lose their duplicates before it is put together. -/
theorem eraseDups_append_eraseDups (l k : List α) :
    (l.eraseDups ++ k.eraseDups).eraseDups = (l ++ k).eraseDups := by
  induction k using List.reverseRecOn with
  | nil => simpa using eraseDups_of_nodup (nodup_eraseDups l)
  | append_singleton k c ih =>
    rw [eraseDups_concat k, ← List.append_assoc, eraseDups_concat (l ++ k)]
    by_cases hc : c ∈ k
    · rw [if_pos hc, if_pos (List.mem_append_right _ hc), ih]
    · rw [if_neg hc, ← List.append_assoc, eraseDups_concat, ih]
      exact if_congr (by simp only [List.mem_append, List.mem_eraseDups]) rfl rfl

end EraseDups

namespace SearchPath

variable {path : SearchPath} {env : Environment} {key location : String}
  {items probed named locations mine theirs : List String}

/-! ### Mentioned locations -/

/-- A mentioned location as it is probed: cleaned, and in the file system unless it is a URL then.
One with a dollar sign stays as it is written. -/
def probedForm (location : String) : String :=
  if '$' ∈ location.toList then location
  else if isUrl (Path.clean location) then Path.clean location
  else filePrefix ++ Path.clean location

/-- The locations that a key of the chain mentions, in the form in which they are probed and in the
order in which they are written. -/
def mentionedBy (env : Environment) (key : String) : Except Failure (List String) :=
  match env.chain.property? key with
  | none => .ok []
  | some property => do
    let value ← env.resolve property.value
    return (Text.splitList value).map probedForm

/-- The locations that replace the configured ones, or else the configured ones as they are
written. -/
def mentionedOtherwise (path : SearchPath) (env : Environment) : Except Failure (List String) :=
  if env.contains Key.locations then mentionedBy env Key.locations
  else do
    let value ← env.resolve (path.locations.getD builtInLocations)
    return Text.splitList value

/-- Of two locations that only the first of two lists mentions, the one whose last mention stands
later is probed first. -/
def LastMentionFirst (locations mine theirs : List String) : Prop :=
  ∀ a b, a ≠ b → a ∈ mine → b ∈ mine → a ∉ theirs → b ∉ theirs →
    (Before locations a b ↔ Outlasts mine a b)

theorem eq_probedForm {probed : String} (h : asProbed location = .ok probed) :
    probed = probedForm location := by
  unfold asProbed at h
  simp only [List.contains_eq_mem, decide_eq_true_eq] at h
  rw [probedForm]
  split at h
  · next hdollar => rw [if_pos hdollar, ← Except.ok.inj h]
  · next hdollar =>
    rw [if_neg hdollar]
    split at h
    · cases h
    · split at h
      · next hurl => rw [if_pos hurl, ← Except.ok.inj h]
      · next hurl => rw [if_neg hurl, ← Except.ok.inj h]

theorem eq_map_probedForm (h : items.mapM asProbed = .ok probed) :
    probed = items.map probedForm := by
  induction items generalizing probed with
  | nil =>
    cases h
    rfl
  | cons item items ih =>
    rw [List.mapM_cons] at h
    obtain ⟨first, hfirst, h⟩ := Failure.bind_eq_ok_iff.mp h
    obtain ⟨others, hothers, h⟩ := Failure.bind_eq_ok_iff.mp h
    cases h
    rw [eq_probedForm hfirst, ih hothers, List.map_cons]

/-- The locations of a key are probed in the reverse order of their last mentions. -/
theorem exists_mentionedBy (h : namedBy env key = .ok named) :
    ∃ mentioned, mentionedBy env key = .ok mentioned ∧ named = mentioned.reverse.eraseDups := by
  obtain ⟨value, hvalue, h⟩ := Failure.bind_eq_ok_iff.mp h
  cases hproperty : env.chain.property? key with
  | none =>
    rw [Environment.get?, hproperty] at hvalue
    cases hvalue
    cases h
    exact ⟨[], by rw [mentionedBy, hproperty], rfl⟩
  | some property =>
    have hget := hvalue
    rw [Environment.get?, hproperty] at hvalue
    obtain ⟨text, htext, hvalue⟩ := Failure.bind_eq_ok_iff.mp hvalue
    cases hvalue
    obtain ⟨written, hitems, h⟩ := Failure.bind_eq_ok_iff.mp h
    obtain ⟨probed, hprobed, h⟩ := Failure.bind_eq_ok_iff.mp h
    cases h
    rw [items_get? hget] at hitems
    cases hitems
    refine ⟨(Text.splitList text).map probedForm, ?_, ?_⟩
    · rw [mentionedBy, hproperty]
      exact Failure.bind_eq_ok_iff.mpr ⟨text, htext, rfl⟩
    · rw [eq_map_probedForm hprobed, eraseDups_map_eraseDups, List.map_reverse]

theorem eq_getD_of_configured {part builtIn text : String} {given : Option String}
    (h : configured part builtIn given = .ok text) : text = given.getD builtIn := by
  cases given with
  | none => exact (Except.ok.inj h).symm
  | some value =>
    rw [configured] at h
    split at h
    · cases h
    · exact (Except.ok.inj h).symm

/-- What is probed after the additional locations. -/
theorem exists_mentionedOtherwise (h : path.probedLocations env = .ok locations) :
    ∃ named others, namedBy env Key.additionalLocations = .ok named ∧
      path.mentionedOtherwise env = .ok others ∧
      locations = (named ++ others.reverse.eraseDups).eraseDups := by
  obtain ⟨named, hnamed, h⟩ := Failure.bind_eq_ok_iff.mp h
  dsimp only at h
  split at h
  · next hkey =>
    obtain ⟨replacing, hreplacing, h⟩ := Failure.bind_eq_ok_iff.mp h
    obtain ⟨others, hothers, rfl⟩ := exists_mentionedBy hreplacing
    split at h
    · cases h
    · cases h
      exact ⟨named, others, hnamed, by rw [mentionedOtherwise, if_pos hkey, hothers], rfl⟩
  · next hkey =>
    obtain ⟨text, htext, h⟩ := Failure.bind_eq_ok_iff.mp h
    obtain ⟨items, hitems, h⟩ := Failure.bind_eq_ok_iff.mp h
    obtain ⟨value, hvalue, hitems⟩ := Failure.bind_eq_ok_iff.mp hitems
    cases h
    cases hitems
    refine ⟨named, Text.splitList value, hnamed, ?_, rfl⟩
    rw [mentionedOtherwise, if_neg hkey, ← eq_getD_of_configured htext]
    exact Failure.bind_eq_ok_iff.mpr ⟨value, hvalue, rfl⟩

/-! ### The rule for the whole list -/

theorem lastMentionFirst_left :
    LastMentionFirst (mine.reverse ++ theirs.reverse).eraseDups mine theirs := by
  intro a b hab ha hb _ _
  rw [before_eraseDups_iff (by simp [hb]) hab, leads_append_iff (by simpa using ha) hab,
    leads_reverse]

theorem lastMentionFirst_right :
    LastMentionFirst (theirs.reverse ++ mine.reverse).eraseDups mine theirs := by
  intro a b hab ha hb hathere hbthere
  rw [before_eraseDups_iff (by simp [hb]) hab,
    leads_append_iff_of_notMem (by simpa using ha) hab (by simpa using hathere)
      (by simpa using hbthere), leads_reverse]

/-- A location is probed where it was mentioned last, the last mentions first, and those of the
additional locations before all others. -/
theorem probedLocations_eq_mentioned (h : path.probedLocations env = .ok locations) :
    locations.Nodup ∧ ∃ additional others,
      mentionedBy env Key.additionalLocations = .ok additional ∧
      path.mentionedOtherwise env = .ok others ∧
      locations = (additional.reverse ++ others.reverse).eraseDups ∧
      LastMentionFirst locations additional others ∧
      LastMentionFirst locations others additional := by
  obtain ⟨named, others, hnamed, hothers, heq⟩ := exists_mentionedOtherwise h
  obtain ⟨additional, hadditional, rfl⟩ := exists_mentionedBy hnamed
  have hlocations : locations = (additional.reverse ++ others.reverse).eraseDups := by
    rw [heq, eraseDups_append_eraseDups]
  refine ⟨hlocations ▸ nodup_eraseDups _, additional, others, hadditional, hothers, hlocations,
    ?_, ?_⟩
  · exact hlocations ▸ lastMentionFirst_left
  · exact hlocations ▸ lastMentionFirst_right

/-- A chain whose keys mention one directory in three spellings, and a file whose name is not known
yet. -/
def spelledEnvironment : Environment where
  chain := ⟨[.ofPairs "arguments"
    [("config.additional-location", "file:./a/, b/../c.yml, a/"),
      ("config.location", "classpath:/d/, file:b/../a/, /etc/./e/, $\x7bdir\x7d/, /etc/e/")]]⟩

def spelledLocations : List String :=
  ["file:a/", "file:c.yml", "file:/etc/e/", "$\x7bdir\x7d/", "classpath:/d/"]

theorem probedLocations_spelled :
    probedLocations {} spelledEnvironment = .ok spelledLocations ∧ spelledLocations.Nodup ∧
      ∃ additional others,
        mentionedBy spelledEnvironment Key.additionalLocations = .ok additional ∧
        mentionedOtherwise {} spelledEnvironment = .ok others ∧
        spelledLocations = (additional.reverse ++ others.reverse).eraseDups ∧
        LastMentionFirst spelledLocations additional others ∧
        LastMentionFirst spelledLocations others additional := by
  have hprobed : probedLocations {} spelledEnvironment = .ok spelledLocations := by
    decide +kernel
  exact ⟨hprobed, probedLocations_eq_mentioned hprobed⟩

end SearchPath

end LayeredConfig
