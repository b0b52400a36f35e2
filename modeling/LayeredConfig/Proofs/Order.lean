/-!
# The order of the members of a list

Which of two members of a list comes first is asked in three ways here: somewhere in the list,
for their first occurrences, and for their last ones. On a list without duplicates the three
agree. Erasing the duplicates of a list keeps the order of the first occurrences.

## Main definitions

* `Before`, `Leads`, `Outlasts`.

## Main results

* `before_eraseDups_iff`, `find?_of_mem_eraseDupsBy`: the order after duplicates are erased.
* `leads_flatMap`: the order in a list put together from parts.
-/

namespace LayeredConfig

variable {α β : Type}

/-- Some `a` stands before some `b`. -/
def Before (l : List α) (a b : α) : Prop :=
  [a, b].Sublist l

/-- Some `a` stands before every `b`. -/
def Leads (l : List α) (a b : α) : Prop :=
  ∃ l₁ l₂, l = l₁ ++ a :: l₂ ∧ b ∉ l₁

/-- Some `a` stands after every `b`. -/
def Outlasts (l : List α) (a b : α) : Prop :=
  ∃ l₁ l₂, l = l₁ ++ a :: l₂ ∧ b ∉ l₂

instance [DecidableEq α] (l : List α) (a b : α) : Decidable (Before l a b) :=
  inferInstanceAs (Decidable ([a, b].Sublist l))

variable {l k : List α} {a b : α}

/-! ### Splitting a list -/

/-- A member with a property has a first one with it. -/
theorem exists_first {p : α → Prop} (h : ∃ c ∈ l, p c) :
    ∃ l₁ c l₂, l = l₁ ++ c :: l₂ ∧ p c ∧ ∀ d ∈ l₁, ¬ p d := by
  induction l with
  | nil =>
    obtain ⟨c, hc, -⟩ := h
    cases hc
  | cons d l ih =>
    by_cases hd : p d
    · exact ⟨[], d, l, rfl, hd, by simp⟩
    · obtain ⟨c, hc, hp⟩ := h
      have hmem : c ∈ l := by
        rcases List.mem_cons.mp hc with rfl | hc
        · exact absurd hp hd
        · exact hc
      obtain ⟨l₁, e, l₂, rfl, he, hfirst⟩ := ih ⟨c, hmem, hp⟩
      refine ⟨d :: l₁, e, l₂, rfl, he, fun f hf => ?_⟩
      rcases List.mem_cons.mp hf with rfl | hf
      · exact hd
      · exact hfirst f hf

/-- A member with a property has a last one with it. -/
theorem exists_last {p : α → Prop} (h : ∃ c ∈ l, p c) :
    ∃ l₁ c l₂, l = l₁ ++ c :: l₂ ∧ p c ∧ ∀ d ∈ l₂, ¬ p d := by
  have hreverse : ∃ c ∈ l.reverse, p c := by simpa using h
  obtain ⟨l₁, c, l₂, hsplit, hc, hfirst⟩ := exists_first hreverse
  refine ⟨l₂.reverse, c, l₁.reverse, ?_, hc, fun d hd => hfirst d (List.mem_reverse.mp hd)⟩
  simpa using congrArg List.reverse hsplit

/-- A list that is split at a member which is not in its first part is split in the second. -/
theorem exists_split_right {l₁ l₂ : List α} (h : l ++ k = l₁ ++ a :: l₂) (ha : a ∉ l) :
    ∃ k₁, l₁ = l ++ k₁ ∧ k = k₁ ++ a :: l₂ := by
  rcases List.append_eq_append_iff.mp h with ⟨k₁, hl₁, hk⟩ | ⟨r, rfl, hr⟩
  · exact ⟨k₁, hl₁, hk⟩
  · cases r with
    | nil => exact ⟨[], by simp, hr.symm⟩
    | cons c r =>
      obtain rfl : a = c := (List.cons.inj hr).1
      exact absurd (by simp) ha

/-- Of things with distinct names, only one has a given name. -/
theorem filter_eq_singleton {f : α → β} {p : α → Bool} {c : β} (hnodup : (l.map f).Nodup)
    (hp : ∀ d, p d = true → f d = c) (ha : a ∈ l) (hpa : p a = true) : l.filter p = [a] := by
  have hsub : ((l.filter p).map f).Nodup := hnodup.sublist (List.filter_sublist.map f)
  have hmem : a ∈ l.filter p := List.mem_filter.mpr ⟨ha, hpa⟩
  have hname : ∀ d ∈ l.filter p, f d = c := fun d hd => hp d (List.mem_filter.mp hd).2
  match hfilter : l.filter p with
  | [] => simp [hfilter] at hmem
  | [d] => rw [hfilter, List.mem_singleton] at hmem; rw [hmem]
  | d :: e :: rest =>
    rw [hfilter] at hsub hname
    have heq : f d = f e := (hname d (by simp)).trans (hname e (by simp)).symm
    simp [heq] at hsub

/-! ### Somewhere in the list -/

theorem before_cons_iff {c : α} : Before (c :: l) a b ↔ a = c ∧ b ∈ l ∨ Before l a b := by
  rw [Before, Before, List.sublist_cons_iff]
  constructor
  · rintro (h | ⟨r, hr, h⟩)
    · exact .inr h
    · obtain ⟨rfl, rfl⟩ := List.cons.inj hr
      exact .inl ⟨rfl, List.singleton_sublist.mp h⟩
  · rintro (⟨rfl, hb⟩ | h)
    · exact .inr ⟨[b], rfl, List.singleton_sublist.mpr hb⟩
    · exact .inl h

theorem before_append_iff :
    Before (l ++ k) a b ↔ Before l a b ∨ Before k a b ∨ a ∈ l ∧ b ∈ k := by
  induction l with
  | nil => simp [Before]
  | cons c l ih =>
    rw [List.cons_append, before_cons_iff, before_cons_iff, ih]
    simp only [List.mem_append, List.mem_cons]
    grind

theorem before_append (ha : a ∈ l) (hb : b ∈ k) : Before (l ++ k) a b :=
  before_append_iff.mpr (.inr (.inr ⟨ha, hb⟩))

theorem before_iff : Before l a b ↔ ∃ l₁ l₂, l = l₁ ++ a :: l₂ ∧ b ∈ l₂ := by
  constructor
  · intro h
    obtain ⟨r₁, r₂, rfl, ha, hb⟩ := List.cons_sublist_iff.mp h
    obtain ⟨s₁, s₂, rfl⟩ := List.append_of_mem ha
    refine ⟨s₁, s₂ ++ r₂, by simp, ?_⟩
    exact List.mem_append_right _ (List.singleton_sublist.mp hb)
  · rintro ⟨l₁, l₂, rfl, hb⟩
    exact before_append_iff.mpr (.inr (.inl (before_cons_iff.mpr (.inl ⟨rfl, hb⟩))))

theorem Before.mem_left (h : Before l a b) : a ∈ l :=
  h.subset (by simp)

theorem Before.mem_right (h : Before l a b) : b ∈ l :=
  h.subset (by simp)

theorem Before.map (h : Before l a b) (f : α → β) : Before (l.map f) (f a) (f b) :=
  List.Sublist.map f h

theorem before_reverse : Before l.reverse a b ↔ Before l b a := by
  show [b, a].reverse.Sublist l.reverse ↔ _
  exact List.reverse_sublist

theorem Before.ne (h : Before l a b) (hnodup : l.Nodup) : a ≠ b := by
  rintro rfl
  have := hnodup.sublist h
  simp at this

/-- In a list without duplicates, of two members only one stands before the other. -/
theorem Before.asymm (h : Before l a b) (hnodup : l.Nodup) : ¬ Before l b a := by
  induction l with
  | nil => cases h
  | cons c l ih =>
    rw [List.nodup_cons] at hnodup
    rw [before_cons_iff] at h ⊢
    rintro (⟨rfl, ha⟩ | hba)
    · rcases h with ⟨rfl, hb⟩ | h
      · exact hnodup.1 hb
      · exact hnodup.1 h.mem_right
    · rcases h with ⟨rfl, hb⟩ | h
      · exact hnodup.1 hba.mem_right
      · exact ih h hnodup.2 hba

theorem before_or_before (ha : a ∈ l) (hb : b ∈ l) (hab : a ≠ b) :
    Before l a b ∨ Before l b a := by
  obtain ⟨l₁, l₂, rfl⟩ := List.append_of_mem ha
  rcases List.mem_append.mp hb with hb | hb
  · exact .inr (before_append hb (by simp))
  · rcases List.mem_cons.mp hb with rfl | hb
    · exact absurd rfl hab
    · exact .inl (before_iff.mpr ⟨l₁, l₂, rfl, hb⟩)

/-- Members of a list stand as they do in a longer one without duplicates. -/
theorem before_iff_of_sublist (h : l.Sublist k) (hnodup : k.Nodup) (ha : a ∈ l) (hb : b ∈ l)
    (hab : a ≠ b) : Before k a b ↔ Before l a b := by
  refine ⟨fun hk => ?_, fun hl => hl.trans h⟩
  refine (before_or_before ha hb hab).resolve_right fun hba => ?_
  exact hk.asymm hnodup (hba.trans h)

/-! ### First and last occurrences -/

theorem Leads.mem (h : Leads l a b) : a ∈ l := by
  obtain ⟨l₁, l₂, rfl, -⟩ := h
  simp

theorem leads_reverse : Leads l.reverse a b ↔ Outlasts l a b := by
  constructor
  · rintro ⟨l₁, l₂, h, hb⟩
    refine ⟨l₂.reverse, l₁.reverse, ?_, by simpa using hb⟩
    simpa using congrArg List.reverse h
  · rintro ⟨l₁, l₂, rfl, hb⟩
    exact ⟨l₂.reverse, l₁.reverse, by simp, by simpa using hb⟩

theorem Leads.append_right (h : Leads l a b) (k : List α) : Leads (l ++ k) a b := by
  obtain ⟨l₁, l₂, rfl, hb⟩ := h
  exact ⟨l₁, l₂ ++ k, by simp, hb⟩

theorem Leads.append_left (h : Leads l a b) (hb : b ∉ k) : Leads (k ++ l) a b := by
  obtain ⟨l₁, l₂, rfl, hb'⟩ := h
  exact ⟨k ++ l₁, l₂, by simp, by simp [hb, hb']⟩

theorem leads_of_notMem (ha : a ∈ l) (hb : b ∉ l) : Leads l a b := by
  obtain ⟨l₁, l₂, rfl⟩ := List.append_of_mem ha
  exact ⟨l₁, l₂, rfl, fun h => hb (List.mem_append_left _ h)⟩

theorem outlasts_of_notMem (ha : a ∈ l) (hb : b ∉ l) : Outlasts l a b := by
  obtain ⟨l₁, l₂, rfl⟩ := List.append_of_mem ha
  exact ⟨l₁, l₂, rfl, fun h => hb (List.mem_append_right _ (List.mem_cons_of_mem _ h))⟩

/-- Of two members, one occurs first. -/
theorem leads_or_leads (ha : a ∈ l) : Leads l a b ∨ Leads l b a := by
  induction l with
  | nil => cases ha
  | cons c l ih =>
    by_cases hc : c = a
    · exact .inl ⟨[], l, by rw [hc]; rfl, by simp⟩
    · by_cases hcb : c = b
      · exact .inr ⟨[], l, by rw [hcb]; rfl, by simp⟩
      · have hmem : a ∈ l := (List.mem_cons.mp ha).resolve_left (Ne.symm hc)
        rcases ih hmem with h | h
        · exact .inl (h.append_left (k := [c]) (by simpa using Ne.symm hcb))
        · exact .inr (h.append_left (k := [c]) (by simpa using Ne.symm hc))

/-- Only one of two members occurs first. -/
theorem Leads.asymm (h : Leads l a b) (hab : a ≠ b) : ¬ Leads l b a := by
  rintro ⟨m₁, m₂, hl, ha⟩
  obtain ⟨l₁, l₂, rfl, hb⟩ := h
  induction l₁ generalizing m₁ with
  | nil =>
    cases m₁ with
    | nil => exact hab (List.cons.inj hl).1
    | cons c m₁ => exact ha ((List.cons.inj hl).1 ▸ List.mem_cons_self)
  | cons c l₁ ih =>
    cases m₁ with
    | nil => exact hb ((List.cons.inj hl).1 ▸ List.mem_cons_self)
    | cons d m₁ =>
      rw [List.mem_cons, not_or] at ha hb
      exact ih m₁ ha.2 hb.2 (List.cons.inj hl).2

/-- Who of two members of a list occurs first does not hang on what follows. -/
theorem leads_append_iff (ha : a ∈ l) (hab : a ≠ b) : Leads (l ++ k) a b ↔ Leads l a b := by
  refine ⟨fun h => ?_, fun h => h.append_right k⟩
  exact (leads_or_leads ha).resolve_right fun hba => h.asymm hab (hba.append_right k)

/-- Nor does it hang on what comes before, as long as neither of the two is there. -/
theorem leads_append_iff_of_notMem (hmem : a ∈ l) (hab : a ≠ b) (ha : a ∉ k) (hb : b ∉ k) :
    Leads (k ++ l) a b ↔ Leads l a b := by
  refine ⟨fun h => ?_, fun h => h.append_left hb⟩
  exact (leads_or_leads hmem).resolve_right fun hba => h.asymm hab (hba.append_left ha)

/-- In a list without duplicates, whoever stands before another occurs first. -/
theorem Before.leads (h : Before l a b) (hnodup : l.Nodup) : Leads l a b := by
  obtain ⟨l₁, l₂, rfl, hb⟩ := before_iff.mp h
  refine ⟨l₁, l₂, rfl, fun hb₁ => ?_⟩
  exact (List.nodup_append.mp hnodup).2.2 b hb₁ b (List.mem_cons_of_mem _ hb) rfl

theorem Leads.before (h : Leads l a b) (hb : b ∈ l) (hab : a ≠ b) : Before l a b := by
  obtain ⟨l₁, l₂, rfl, hb₁⟩ := h
  have hb₂ : b ∈ l₂ := by simpa [hb₁, Ne.symm hab] using hb
  exact before_iff.mpr ⟨l₁, l₂, rfl, hb₂⟩

/-- Dropping others does not change who occurs first. -/
theorem leads_filter {p : α → Bool} (ha : p a = true) (hb : p b = true) (hab : a ≠ b) :
    Leads (l.filter p) a b ↔ Leads l a b := by
  have hkeep {s t : α} (hs : p s = true) (h : Leads l s t) : Leads (l.filter p) s t := by
    obtain ⟨l₁, l₂, rfl, ht⟩ := h
    refine ⟨l₁.filter p, l₂.filter p, ?_, fun h => ht (List.mem_filter.mp h).1⟩
    rw [List.filter_append, List.filter_cons_of_pos hs]
  refine ⟨fun h => ?_, hkeep ha⟩
  have hmem : a ∈ l := (List.mem_filter.mp h.mem).1
  exact (leads_or_leads hmem).resolve_right fun hba => h.asymm hab (hkeep hb hba)

/-! ### Erasing duplicates -/

/-- Once duplicates are erased by a key, each member is the first one with its key. -/
theorem find?_of_mem_eraseDupsBy [BEq β] [LawfulBEq β] {f : α → β} {l : List α} {a : α}
    (h : a ∈ l.eraseDupsBy fun a b => f a == f b) : l.find? (fun b => f b == f a) = some a := by
  match l with
  | [] => cases h
  | c :: l =>
    rw [List.eraseDupsBy_cons, List.mem_cons] at h
    rcases h with rfl | h
    · exact List.find?_cons_of_pos (by simp)
    · have hrest := find?_of_mem_eraseDupsBy (f := f) h
      have hmem := List.mem_of_find?_eq_some hrest
      have hne : f a ≠ f c := by simpa using (List.mem_filter.mp hmem).2
      rw [List.find?_cons_of_neg (by simpa using Ne.symm hne), ← hrest, List.find?_filter]
      congr 1
      funext b
      by_cases hb : f b = f a
      · simp [hb, hne]
      · simp [hb]
termination_by l.length
decreasing_by exact Nat.lt_succ_of_le (List.length_filter_le ..)

variable [BEq α] [LawfulBEq α]

theorem nodup_eraseDups (l : List α) : l.eraseDups.Nodup := by
  match l with
  | [] => simp
  | c :: l =>
    rw [List.eraseDups_cons, List.nodup_cons]
    exact ⟨by simp [List.mem_eraseDups], nodup_eraseDups _⟩
termination_by l.length
decreasing_by exact Nat.lt_succ_of_le (List.length_filter_le ..)

/-- A list without duplicates has none to erase. -/
theorem eraseDups_of_nodup {l : List α} (h : l.Nodup) : l.eraseDups = l := by
  induction l with
  | nil => rfl
  | cons c l ih =>
    rw [List.nodup_cons] at h
    have hkept : l.filter (fun b => !b == c) = l := by
      refine List.filter_eq_self.mpr fun b hb => ?_
      have hne : b ≠ c := fun heq => h.1 (heq ▸ hb)
      simpa using hne
    rw [List.eraseDups_cons, hkept, ih h.2]

/-- One more thing goes to the end, unless it is there already. -/
theorem eraseDups_concat (l : List α) (c : α) :
    (l ++ [c]).eraseDups = if c ∈ l then l.eraseDups else l.eraseDups ++ [c] := by
  rw [List.eraseDups_append]
  split
  · next hc => simp [List.removeAll, hc]
  · next hc => simp [List.removeAll, hc, List.eraseDups_cons]

private theorem Leads.before_eraseDups (h : Leads l a b) (hb : b ∈ l) (hab : a ≠ b) :
    Before l.eraseDups a b := by
  obtain ⟨l₁, l₂, rfl, hb₁⟩ := h
  have hb₂ : b ∈ l₂ := by simpa [hb₁, Ne.symm hab] using hb
  rw [List.eraseDups_append]
  by_cases ha : a ∈ l₁
  · refine before_append (List.mem_eraseDups.mpr ha) (List.mem_eraseDups.mpr ?_)
    simp [List.removeAll, hb₁, hb₂]
  · have hfirst : (a :: l₂).removeAll l₁ = a :: l₂.removeAll l₁ := by
      simp [List.removeAll, ha]
    rw [hfirst, List.eraseDups_cons]
    refine before_iff.mpr ⟨_, _, rfl, List.mem_eraseDups.mpr ?_⟩
    simp [List.removeAll, hb₁, hb₂, Ne.symm hab]

/-- Once duplicates are erased, members stand in the order of their first occurrences. -/
theorem before_eraseDups_iff (hb : b ∈ l) (hab : a ≠ b) :
    Before l.eraseDups a b ↔ Leads l a b := by
  refine ⟨fun h => ?_, fun h => h.before_eraseDups hb hab⟩
  have ha : a ∈ l := List.mem_eraseDups.mp h.mem_left
  refine (leads_or_leads ha).resolve_right fun hba => ?_
  exact h.asymm (nodup_eraseDups l) (hba.before_eraseDups ha (Ne.symm hab))

omit [BEq α] [LawfulBEq α]

/-! ### Lists put together from parts -/

/-- A member of one part leads another one that neither stands in an earlier part nor, in the
part itself, before it. -/
theorem leads_flatMap {f : α → List β} {x : α} {l₁ l₂ : List α} {s t : β}
    (hearlier : ∀ y ∈ l₁, t ∉ f y) (hpart : Leads (f x) s t) :
    Leads ((l₁ ++ x :: l₂).flatMap f) s t := by
  rw [List.flatMap_append, List.flatMap_cons]
  refine (hpart.append_right _).append_left fun ht => ?_
  obtain ⟨y, hy, hty⟩ := List.mem_flatMap.mp ht
  exact hearlier y hy hty

/-- A member of one part outlasts another one that neither stands in a later part nor, in the
part itself, after it. -/
theorem outlasts_flatMap {f : α → List β} {x : α} {l₁ l₂ : List α} {s t : β}
    (hpart : Outlasts (f x) s t) (hlater : ∀ y ∈ l₂, t ∉ f y) :
    Outlasts ((l₁ ++ x :: l₂).flatMap f) s t := by
  obtain ⟨m₁, m₂, hsplit, ht⟩ := hpart
  refine ⟨l₁.flatMap f ++ m₁, m₂ ++ l₂.flatMap f, ?_, fun hmem => ?_⟩
  · rw [List.flatMap_append, List.flatMap_cons, hsplit]
    simp
  · rcases List.mem_append.mp hmem with hmem | hmem
    · exact ht hmem
    · obtain ⟨y, hy, hty⟩ := List.mem_flatMap.mp hmem
      exact hlater y hy hty

/-- In a list whose parts are each made of one thing, things stand in the order of the parts. -/
theorem Before.of_flatMap {f : α → List β} {g : α → β} {s t : β}
    (hpart : ∀ x ∈ l, ∀ y ∈ f x, y = g x) (h : Before (l.flatMap f) s t) :
    s = t ∨ Before (l.map g) s t := by
  induction l with
  | nil => cases h
  | cons x l ih =>
    have hhere : ∀ y ∈ f x, y = g x := hpart x (by simp)
    rw [List.flatMap_cons, before_append_iff] at h
    rw [List.map_cons, before_cons_iff]
    rcases h with h | h | ⟨hs, ht⟩
    · exact .inl ((hhere s h.mem_left).trans (hhere t h.mem_right).symm)
    · exact (ih (fun y hy => hpart y (List.mem_cons_of_mem _ hy)) h).imp_right .inr
    · obtain ⟨y, hy, hty⟩ := List.mem_flatMap.mp ht
      have hyl : y ∈ x :: l := List.mem_cons_of_mem _ hy
      refine .inr (.inl ⟨hhere s hs, ?_⟩)
      rw [hpart y hyl t hty]
      exact List.mem_map_of_mem hy

end LayeredConfig
