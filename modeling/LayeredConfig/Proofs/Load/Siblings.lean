import LayeredConfig.Proofs.Load.Naming

/-!
# How visits find the documents of one file

A visit finds the documents of a file from the last one to the first. Over the visits of a sweep
the order of two documents depends on which visits find them, and that depends on what the
documents declare: the file of a named profile is looked at twice, for the documents that declare
nothing and then for those that declare the profile.

## Main definitions

* `FoundIn`: a visit with the given documents finds a pickup.
* `FollowedUp`: a file is looked at for what declares nothing before it is for the profile.

## Main results

* `outlasts_of_together`, `leads_of_together`: the order of documents that are found together.
* `Sweep.mem_names_iff_of_positive`, `Sweep.mem_names_iff_of_unscoped`: the visits that find a
  document.
-/

namespace LayeredConfig

/-! ### Documents of one file -/

/-- A visit with the given documents finds the pickup. -/
def FoundIn (visits : List Visit) (documents : List Document) (pickup : Pickup) : Prop :=
  ∃ visit ∈ visits, pickup ∈ visit.found ∧ visit.documents = documents

namespace Visit

variable {visits : List Visit} {visit : Visit} {documents : List Document} {p : Pickup}

/-- A visit finds the documents from the last one to the first. -/
theorem pairwise_found (visit : Visit) :
    visit.found.Pairwise fun p q => q.index < p.index := by
  have hindex : visit.documents.zipIdx.Pairwise fun a b => a.2 < b.2 := by
    rw [← List.pairwise_map (f := Prod.snd), List.zipIdx_map_snd]
    exact List.pairwise_lt_range'
  rw [found, Sweep.picked, List.pairwise_map, List.pairwise_reverse]
  exact hindex.filter _

section Apart

variable (hapart : NamesApart visits)

include hapart

/-- A visit finds a document of a file under its name exactly when it looks at the file and the
document takes part. -/
theorem mem_names_iff (hvisit : visit ∈ visits) (hp : FoundIn visits documents p) :
    p.name ∈ visit.names ↔ visit.documents = documents ∧
      p.document.takesPart visit.sweep.pass visit.probe.selector visit.sweep.env = true := by
  obtain ⟨u, hu, hpu, rfl⟩ := hp
  constructor
  · intro hname
    obtain ⟨r, hr, hname⟩ := List.mem_map.mp hname
    obtain ⟨hdocuments, hindex⟩ := hapart visit hvisit u hu r hr p hpu hname
    obtain ⟨hdocument, htakes, -⟩ := mem_found_iff.mp hr
    rw [hdocuments, hindex, getElem?_of_mem_found hpu] at hdocument
    rw [Option.some.inj hdocument]
    exact ⟨hdocuments, htakes⟩
  · rintro ⟨hdocuments, htakes⟩
    have hdocument : visit.documents[p.index]? = some p.document := by
      rw [hdocuments]
      exact getElem?_of_mem_found hpu
    exact mem_names_of_takesPart hdocument htakes

private theorem index_eq {r : Pickup} (hvisit : visit ∈ visits) (hr : r ∈ visit.found)
    (hp : FoundIn visits documents p) (hname : r.name = p.name) : r.index = p.index := by
  obtain ⟨u, hu, hpu, -⟩ := hp
  exact (hapart visit hvisit u hu r hr p hpu hname).2

/-- Around a document of a file, a visit finds later ones first and then earlier ones. -/
theorem split_names (hvisit : visit ∈ visits) (hp : FoundIn visits documents p)
    (hname : p.name ∈ visit.names) : ∃ names₁ names₂, visit.names = names₁ ++ p.name :: names₂ ∧
      (∀ q, FoundIn visits documents q → q.name ∈ names₁ → p.index < q.index) ∧
      ∀ q, FoundIn visits documents q → q.name ∈ names₂ → q.index < p.index := by
  obtain ⟨r, hr, hname⟩ := List.mem_map.mp hname
  have hrindex := index_eq hapart hvisit hr hp hname
  obtain ⟨found₁, found₂, hsplit⟩ := List.append_of_mem hr
  have hpairwise := visit.pairwise_found
  rw [hsplit, List.pairwise_append, List.pairwise_cons] at hpairwise
  obtain ⟨-, ⟨hafter, -⟩, hbefore⟩ := hpairwise
  refine ⟨found₁.map Pickup.name, found₂.map Pickup.name, ?_, fun q hq hmem => ?_,
    fun q hq hmem => ?_⟩
  · rw [names, hsplit, List.map_append, List.map_cons, hname]
  · obtain ⟨s, hs, hsname⟩ := List.mem_map.mp hmem
    have hsindex := index_eq hapart hvisit (by simp [hsplit, hs]) hq hsname
    have hlt := hbefore s hs r List.mem_cons_self
    omega
  · obtain ⟨s, hs, hsname⟩ := List.mem_map.mp hmem
    have hsindex := index_eq hapart hvisit (by simp [hsplit, hs]) hq hsname
    have hlt := hafter s hs
    omega

end Apart

end Visit

section Together

variable {visits part : List Visit} {documents : List Document} {p q : Pickup}
  (hapart : NamesApart visits) (hpart : ∀ visit ∈ part, visit ∈ visits)
  (hp : FoundIn visits documents p) (hq : FoundIn visits documents q) (hindex : p.index < q.index)

include hapart hpart hp hq hindex

/-- If visits find a document with every later one, they find it after the later one. -/
theorem outlasts_of_together (htogether : ∀ visit ∈ part, q.name ∈ visit.names →
    p.name ∈ visit.names) (hname : p.name ∈ part.flatMap Visit.names) :
    Outlasts (part.flatMap Visit.names) p.name q.name := by
  obtain ⟨visits₁, visit, visits₂, rfl, hname, hlast⟩ :=
    exists_last (p := fun visit : Visit => p.name ∈ visit.names) (List.mem_flatMap.mp hname)
  obtain ⟨names₁, names₂, hsplit, -, hafter⟩ :=
    Visit.split_names hapart (hpart visit (by simp)) hp hname
  refine outlasts_flatMap ⟨names₁, names₂, hsplit, fun hmem => ?_⟩ fun later hlater hmem => ?_
  · have hlt := hafter q hq hmem
    omega
  · exact hlast later hlater (htogether later (by simp [hlater]) hmem)

/-- If visits find a later document with every earlier one, they find it before the earlier
one. -/
theorem leads_of_together (htogether : ∀ visit ∈ part, p.name ∈ visit.names →
    q.name ∈ visit.names) (hname : q.name ∈ part.flatMap Visit.names) :
    Leads (part.flatMap Visit.names) q.name p.name := by
  obtain ⟨visits₁, visit, visits₂, rfl, hname, hfirst⟩ :=
    exists_first (p := fun visit : Visit => q.name ∈ visit.names) (List.mem_flatMap.mp hname)
  obtain ⟨names₁, names₂, hsplit, hbefore, -⟩ :=
    Visit.split_names hapart (hpart visit (by simp)) hq hname
  refine leads_flatMap (fun earlier hearlier hmem => ?_) ⟨names₁, names₂, hsplit, fun hmem => ?_⟩
  · exact hfirst earlier hearlier (htogether earlier (by simp [hearlier]) hmem)
  · have hlt := hbefore p hp hmem
    omega

end Together

/-! ### The looks at the file of a profile -/

/-- Whenever a file is looked at for another profile, it is then looked at for this one. -/
def FollowedUp (profile : Profile) (probes : List Probe) : Prop :=
  ∀ probes₁ probe probes₂, probes = probes₁ ++ probe :: probes₂ → probe.selector ≠ profile →
    { probe with selector := profile } ∈ probes₂

namespace FollowedUp

variable {profile : Profile} {probes more : List Probe}

theorem of_selector (h : ∀ probe ∈ probes, probe.selector = profile) :
    FollowedUp profile probes := by
  rintro probes₁ probe probes₂ rfl hother
  exact absurd (h probe (by simp)) hother

theorem cons {probe : Probe} (hmem : { probe with selector := profile } ∈ probes)
    (h : FollowedUp profile probes) : FollowedUp profile (probe :: probes) := by
  intro probes₁ other probes₂ hsplit hother
  cases probes₁ with
  | nil =>
    obtain ⟨rfl, rfl⟩ := List.cons.inj hsplit
    exact hmem
  | cons first probes₁ => exact h probes₁ other probes₂ (List.cons.inj hsplit).2 hother

theorem append (h : FollowedUp profile probes) (hmore : FollowedUp profile more) :
    FollowedUp profile (probes ++ more) := by
  induction probes with
  | nil => exact hmore
  | cons probe probes ih =>
    have hrest : FollowedUp profile (probes ++ more) := by
      refine ih fun probes₁ other probes₂ hsplit => h (probe :: probes₁) other probes₂ ?_
      rw [hsplit, List.cons_append]
    by_cases hself : probe.selector = profile
    · intro probes₁ other probes₂ hsplit hother
      cases probes₁ with
      | nil => exact absurd ((List.cons.inj hsplit).1 ▸ hself) hother
      | cons first probes₁ => exact hrest probes₁ other probes₂ (List.cons.inj hsplit).2 hother
    · exact cons (List.mem_append_left _ (h [] probe probes rfl hself)) hrest

theorem flatMap {α : Type} {f : α → List Probe} {l : List α}
    (h : ∀ a ∈ l, FollowedUp profile (f a)) : FollowedUp profile (l.flatMap f) := by
  induction l with
  | nil => exact of_selector (by simp)
  | cons a l ih =>
    rw [List.flatMap_cons]
    exact (h a (by simp)).append (ih fun b hb => h b (List.mem_cons_of_mem _ hb))

end FollowedUp

namespace Plan

private theorem followedUp_stemProbes (processed : List Profile) (profile : Profile)
    (stem : String) (handler : Handler) :
    FollowedUp profile (stemProbes processed profile stem handler) := by
  unfold stemProbes
  dsimp only
  split
  · exact .of_selector (by simp)
  · rw [List.cons_append]
    refine .cons (by simp) (.of_selector fun probe hprobe => ?_)
    simp only [List.cons_append, List.mem_cons, List.mem_append, List.mem_map,
      List.not_mem_nil, or_false] at hprobe
    rcases hprobe with rfl | ⟨other, -, rfl⟩ | rfl <;> rfl

/-- The looks for a profile are for the profile itself, and those that are not are followed by
one at the same file that is. -/
theorem followedUp_probes (plan : Plan) (processed : List Profile) (profile : Profile) :
    FollowedUp profile (plan.probes processed profile) := by
  refine .flatMap fun root _ => ?_
  unfold locationProbes
  split
  · exact .flatMap fun name _ => .flatMap fun handler _ =>
      followedUp_stemProbes processed profile (root ++ name) handler
  · exact .of_selector (by simp)

/-- A look is for the profile itself or for no profile. -/
theorem selector_of_mem_probes {plan : Plan} {processed : List Profile} {profile : Profile}
    {probe : Probe} (h : probe ∈ plan.probes processed profile) :
    probe.selector = profile ∨ probe.selector = .unscoped := by
  obtain ⟨root, -, h⟩ := List.mem_flatMap.mp h
  unfold locationProbes at h
  split at h
  · obtain ⟨name, -, h⟩ := List.mem_flatMap.mp h
    obtain ⟨handler, -, h⟩ := List.mem_flatMap.mp h
    exact (look_of_mem_stemProbes h).2.1
  · rw [List.mem_singleton.mp h]
    exact .inl rfl

end Plan

/-! ### The documents that take part -/

namespace Document

variable {document : Document} {pass : Pass} {profile : Profile} {env : Environment}

/-- In the positive pass the unscoped profile takes what declares nothing. -/
theorem takesPart_positive_iff (h : profile.name? = none) :
    document.takesPart .positive profile env = true ↔ document.declared = [] := by
  simp [takesPart, applies, h]

/-- What takes part in another way declares something. -/
theorem declared_ne_nil (h : document.takesPart pass profile env = true)
    (hother : pass = .negative ∨ profile.name? ≠ none) : document.declared ≠ [] := by
  intro hnil
  cases pass with
  | positive =>
    obtain ⟨name, hname⟩ := Option.ne_none_iff_exists'.mp (hother.resolve_left (by simp))
    simp [takesPart, applies, hname, hnil] at h
  | negative =>
    cases hname : profile.name? <;> simp [takesPart, applies, isSpecific, hname, hnil] at h

end Document

namespace Sweep

variable {sweep : Sweep} {ctx : LoadContext} {memo : DocumentMemo} {visits : List Visit}
  {visit : Visit} {documents : List Document} {p q : Pickup}

theorem map_probe_visits (sweep : Sweep) (ctx : LoadContext) (memo : DocumentMemo) :
    (sweep.visits ctx memo).map Visit.probe = ctx.plan.probes sweep.earlier sweep.profile := by
  simp only [Sweep.visits, Plan.probes, List.map_flatMap, List.map_map]
  exact List.flatMap_congr fun root _ => List.map_id _

theorem selector_of_mem_visits (h : visit ∈ sweep.visits ctx memo) :
    visit.probe.selector = sweep.profile ∨ visit.probe.selector = .unscoped := by
  have hprobe := List.mem_map_of_mem (f := Visit.probe) h
  rw [map_probe_visits] at hprobe
  exact Plan.selector_of_mem_probes hprobe

/-- A visit that is not for the profile itself is followed by one to the same file that is. -/
theorem exists_followUp {visits₁ visits₂ : List Visit}
    (h : sweep.visits ctx memo = visits₁ ++ visit :: visits₂)
    (hother : visit.probe.selector ≠ sweep.profile) :
    ∃ later ∈ visits₂, later.documents = visit.documents ∧
      later.probe.selector = sweep.profile := by
  have hprobes := congrArg (List.map Visit.probe) h
  rw [map_probe_visits, List.map_append, List.map_cons] at hprobes
  obtain ⟨later, hlater, hprobe⟩ :=
    List.mem_map.mp (ctx.plan.followedUp_probes _ _ _ _ _ hprobes hother)
  have hvisit : visit ∈ sweep.visits ctx memo := by simp [h]
  have hlatervisit : later ∈ sweep.visits ctx memo := by simp [h, hlater]
  refine ⟨later, hlater, ?_, by rw [hprobe]⟩
  rw [documents_of_mem_visits hlatervisit, documents_of_mem_visits hvisit, hprobe]
  rfl

section Apart

variable (hapart : NamesApart visits) (hpart : ∀ visit ∈ sweep.visits ctx memo, visit ∈ visits)
  (hp : FoundIn visits documents p)
  (hname : p.name ∈ (sweep.visits ctx memo).flatMap Visit.names)

include hapart hpart hp hname

/-- A sweep of the positive pass that finds a document finds it with every look at its file
that is for no profile, or with every other one. -/
theorem mem_names_iff_of_positive (hpass : sweep.pass = .positive)
    (hvisit : visit ∈ sweep.visits ctx memo) :
    p.name ∈ visit.names ↔ visit.documents = documents ∧
      (visit.probe.selector.name? = none ↔ p.document.declared = []) := by
  rw [Visit.mem_names_iff hapart (hpart visit hvisit) hp, sweep_eq_of_mem_visits hvisit, hpass]
  refine and_congr_right fun _ => ?_
  by_cases hselector : visit.probe.selector.name? = none
  · rw [Document.takesPart_positive_iff hselector]
    exact (iff_true_left hselector).symm
  · refine ⟨fun htakes => ?_, fun hiff => ?_⟩
    · exact iff_of_false hselector (Document.declared_ne_nil htakes (.inr hselector))
    · have hdeclared := mt hiff.mpr hselector
      -- The visit that found the document was for the same profile as this one.
      obtain ⟨other, hother, hmem⟩ := List.mem_flatMap.mp hname
      rw [Visit.mem_names_iff hapart (hpart other hother) hp, sweep_eq_of_mem_visits hother,
        hpass] at hmem
      have hnamed : other.probe.selector.name? ≠ none := fun hnone =>
        hdeclared ((Document.takesPart_positive_iff hnone).mp hmem.2)
      have hself {v : Visit} (hv : v ∈ sweep.visits ctx memo) (h : v.probe.selector.name? ≠ none) :
          v.probe.selector = sweep.profile :=
        (selector_of_mem_visits hv).resolve_right fun hunscoped => h (by rw [hunscoped]; rfl)
      rw [hself hvisit hselector, ← hself hother hnamed]
      exact hmem.2

/-- The final sweep finds a document with every look at its file, or with none. -/
theorem mem_names_iff_of_unscoped (hprofile : sweep.profile = .unscoped)
    (hvisit : visit ∈ sweep.visits ctx memo) :
    p.name ∈ visit.names ↔ visit.documents = documents := by
  obtain ⟨other, hother, hmem⟩ := List.mem_flatMap.mp hname
  rw [Visit.mem_names_iff hapart (hpart other hother) hp, sweep_eq_of_mem_visits hother] at hmem
  have hself {v : Visit} (hv : v ∈ sweep.visits ctx memo) : v.probe.selector = .unscoped :=
    (selector_of_mem_visits hv).elim (fun h => h.trans hprofile) id
  rw [Visit.mem_names_iff hapart (hpart visit hvisit) hp, sweep_eq_of_mem_visits hvisit,
    hself hvisit]
  rw [hself hother] at hmem
  exact and_iff_left hmem.2

end Apart

end Sweep

end LayeredConfig
