import LayeredConfig.Proofs.Load.Naming
import LayeredConfig.Proofs.Load.Steps

/-!
# The documents of a load come from files

Whatever a run keeps in its memo or has picked up was read from a location of the store. So it
bears a name that no default properties have, and what it activates or includes counts as asked
for.

## Main definitions

* `Document.IsRead`: a document was read from the store.
* `Run.FromFiles`: so were the documents of a run.
* `Run.QueueInvariant`: a property of runs that only following documents and taking profiles can
  affect.

## Main results

* `Document.IsRead.name_ne`, `Document.IsRead.requested`: what is known of a document.
* `Run.invariant_fromFiles`: the documents of a load come from files all the way.
* `Run.QueueInvariant.invariant`: what is kept by following documents that were read, and by taking
  profiles from the queue, is kept all the way.
-/

namespace LayeredConfig

/-! ### Documents of the store -/

/-- The document was read from a location of the store. -/
def Document.IsRead (ctx : LoadContext) (document : Document) : Prop :=
  ∃ format ∈ ctx.plan.registry.formats, ∃ location resolve documents,
    Document.load format (Run.sourceName location) (ctx.store.resource location) resolve =
      .ok documents ∧ document ∈ documents

namespace Document.IsRead

variable {ctx : LoadContext} {document : Document}

private theorem lead_append_ne (rest : String) :
    "applicationConfig: [" ++ rest ≠ defaultPropertiesName := by
  have hleft : "applicationConfig: [".toList.head? = some 'a' := by decide
  have hright : defaultPropertiesName.toList.head? = some 'd' := by decide
  intro heq
  have hhead := congrArg (fun name : String => name.toList.head?) heq
  simp only [String.toList_append, List.head?_append] at hhead
  rw [hleft, hright] at hhead
  cases hhead

/-- The default properties are not read from the store. -/
theorem name_ne (h : document.IsRead ctx) : document.source.name ≠ defaultPropertiesName := by
  obtain ⟨format, -, location, resolve, documents, hload, hmem⟩ := h
  obtain ⟨index, hindex⟩ := List.getElem?_of_mem hmem
  rw [name_of_load hload hindex, Format.documentName]
  unfold Run.sourceName
  split
  · rw [String.append_assoc]
    exact lead_append_ne _
  · simp only [String.append_assoc]
    exact lead_append_ne _

/-- What a document activates or includes counts as asked for. -/
theorem requested (h : document.IsRead ctx) :
    ∀ p ∈ document.requests, ∃ name, p = .requested name := by
  obtain ⟨format, -, location, resolve, documents, hload, hmem⟩ := h
  obtain ⟨sources, -, hdocuments⟩ := Failure.bind_eq_ok_iff.mp hload
  obtain ⟨source, -, hsource⟩ := exists_of_mem_mapM hdocuments document hmem
  unfold ofSource at hsource
  obtain ⟨declared, -, hsource⟩ := Failure.bind_eq_ok_iff.mp hsource
  obtain ⟨activates, -, hsource⟩ := Failure.bind_eq_ok_iff.mp hsource
  obtain ⟨includes, -, hsource⟩ := Failure.bind_eq_ok_iff.mp hsource
  cases hsource
  intro p hp
  rcases List.mem_append.mp hp with hp | hp <;>
  · obtain ⟨name, -, rfl⟩ := List.mem_map.mp hp
    exact ⟨name, rfl⟩

end Document.IsRead

namespace Run

/-- The documents that a run keeps, and those that it picked up, were read from the store. -/
structure FromFiles (ctx : LoadContext) (run : Run) : Prop where
  kept : ∀ document, run.Keeps document → document.IsRead ctx
  picked : ∀ pickup ∈ run.pickups, pickup.document.IsRead ctx

variable {ctx : LoadContext} {pass : Pass} {profile : Profile} {run after : Run}

/-- Following documents changes only the queue and the events. -/
theorem foldl_follow (documents : List Document) (run : Run) :
    (documents.foldl Run.follow run).memo = run.memo ∧
      (documents.foldl Run.follow run).pickups = run.pickups ∧
      Steady run (documents.foldl Run.follow run) := by
  induction documents generalizing run with
  | nil => exact ⟨rfl, rfl, .refl run⟩
  | cons document documents ih =>
    obtain ⟨hmemo, hpickups, hsteady⟩ := ih (run.follow document)
    exact ⟨hmemo, hpickups, (steady_follow run document).trans hsteady⟩

/-- The documents that are picked up are those that were chosen. -/
theorem mem_pickups_pickUp {location : String} {chosen : List (Document × Nat)} {pickup : Pickup} :
    pickup ∈ (run.pickUp pass profile location chosen).pickups ↔
      pickup ∈ run.pickups ∨ ∃ entry ∈ chosen,
        pickup = { profile, placement := pass.placement, location, index := entry.2,
                   document := entry.1 } := by
  simp [pickUp, ← Array.mem_toList_iff, eq_comm]

theorem fromFiles_start (env : Environment) (queue : ProfileQueue) (events : List Event) :
    (Run.start env queue events).FromFiles ctx where
  kept document h := by
    obtain ⟨entry, hentry, -⟩ := h
    cases hentry
  picked pickup h := by simp [Run.start] at h

theorem FromFiles.step (hstep : Step ctx pass profile run after) (h : run.FromFiles ctx) :
    after.FromFiles ctx := by
  cases hstep with
  | skip => exact ⟨h.kept, h.picked⟩
  | read hformat hget =>
    refine ⟨fun document hkept => ?_, h.picked⟩
    obtain ⟨entry, hentry, hmem⟩ := hkept
    rcases DocumentMemo.get_cases hget with ⟨rfl, -⟩ | ⟨hload, rfl⟩
    · exact h.kept document ⟨entry, hentry, hmem⟩
    · rcases List.mem_cons.mp hentry with rfl | hentry
      · exact ⟨_, hformat, _, _, _, hload, hmem⟩
      · exact h.kept document ⟨entry, hentry, hmem⟩
  | pickUp location chosen hchosen hkept =>
    obtain ⟨hmemo, hpickups, -⟩ := foldl_follow (chosen.map Prod.fst) run
    refine ⟨fun document hdocument => h.kept document ?_, fun pickup hpickup => ?_⟩
    · obtain ⟨entry, hentry, hmem⟩ := hdocument
      exact ⟨entry, hmemo ▸ hentry, hmem⟩
    · rcases mem_pickups_pickUp.mp hpickup with hpickup | ⟨entry, hentry, rfl⟩
      · exact h.picked pickup (hpickups ▸ hpickup)
      · exact h.kept _ (hkept entry hentry)

theorem FromFiles.follow (h : run.FromFiles ctx) (document : Document) :
    (run.follow document).FromFiles ctx :=
  ⟨h.kept, h.picked⟩

theorem invariant_fromFiles : Invariant ctx fun _ run => run.FromFiles ctx where
  follow _ h := h.follow _
  step hstep h := h.step hstep
  announce _ h := ⟨h.kept, h.picked⟩
  next _ h := ⟨h.kept, h.picked⟩
  done h := ⟨h.kept, h.picked⟩
  drained _ h := ⟨h.kept, h.picked⟩

/-! ### Invariants of the queue -/

theorem isRead_of_kept (hfiles : run.FromFiles ctx) {chosen : List (Document × Nat)}
    (hkept : ∀ entry ∈ chosen, run.Keeps entry.1) :
    ∀ document ∈ chosen.map Prod.fst, document.IsRead ctx := by
  intro document hmem
  obtain ⟨entry, hentry, rfl⟩ := List.mem_map.mp hmem
  exact hfiles.kept _ (hkept entry hentry)

/-- A property of runs, and of the profiles that are being processed, that is kept when documents
are followed that were read, and when profiles are taken from the queue. Whatever else happens does
not affect it. -/
structure QueueInvariant (ctx : LoadContext) (P : List Profile → Run → Prop) : Prop where
  follow : ∀ {busy run document}, document.IsRead ctx → P busy run → P busy (run.follow document)
  record : ∀ {busy run} (finding : Finding) (location : String) (name : Option String),
    P busy run → P busy (run.record (.probed finding location name))
  keep : ∀ {busy run} (env : Environment) (memo : DocumentMemo) (pickups : Array Pickup),
    P busy run → P busy { run with env, memo, pickups }
  next : ∀ {run queue profile}, run.queue.next = (some profile, queue) → P [] run →
    P [profile] { run with queue }
  done : ∀ {run profile}, P [profile] run → P [] (run.markProcessed profile)
  drained : ∀ {run queue}, run.queue.next = (none, queue) → P [] run → P [] { run with queue }

/-- Such a property is kept by everything that happens in a load. -/
theorem QueueInvariant.invariant {P : List Profile → Run → Prop} (h : QueueInvariant ctx P) :
    Invariant ctx fun busy run => run.FromFiles ctx ∧ P busy run where
  follow hkept hrun := ⟨hrun.1.follow _, h.follow (hrun.1.kept _ hkept) hrun.2⟩
  step {busy _ _ run _} hstep hrun := by
    refine ⟨hrun.1.step hstep, ?_⟩
    cases hstep with
    | skip => exact h.record _ _ _ hrun.2
    | read => exact h.keep run.env _ run.pickups hrun.2
    | pickUp location chosen _ hkept =>
      have hread := isRead_of_kept hrun.1 hkept
      have hfollowed : P busy ((chosen.map Prod.fst).foldl Run.follow run) :=
        List.foldlRecOn (motive := P busy) _ _ hrun.2
          fun _ hbefore document hmem => h.follow (hread document hmem) hbefore
      exact h.record _ _ _ (h.keep _ _ _ hfollowed)
  announce env hrun := ⟨⟨hrun.1.kept, hrun.1.picked⟩, h.keep env _ _ hrun.2⟩
  next hnext hrun := ⟨⟨hrun.1.kept, hrun.1.picked⟩, h.next hnext hrun.2⟩
  done hrun := ⟨⟨hrun.1.kept, hrun.1.picked⟩, h.done hrun.2⟩
  drained hnext hrun := ⟨⟨hrun.1.kept, hrun.1.picked⟩, h.drained hnext hrun.2⟩

end Run

end LayeredConfig
