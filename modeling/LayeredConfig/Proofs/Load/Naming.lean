import LayeredConfig.Proofs.Load.Collected
import LayeredConfig.Proofs.Load.Reading
import LayeredConfig.Proofs.Text

/-!
# Source names tell documents apart

The name of a source shows the location that was read and the index of the document. A memo
keeps the documents of a resource under the names of the location where it was read first. In a
registry where every file is read with the format that is meant for its location, two documents
that a load finds under one name are therefore the same document of the same resource.

## Main definitions

* `Registry.Consistent`: a file is read with one format wherever it is come upon.
* `NamesApart`: what visits find under one name is one document.

## Main results

* `Plan.look_of_mem_stemProbes`: the format, the profile and the file of a look for a stem.
* `Loader.Course.namesApart`: in a consistent registry, names tell the documents apart.
* `Registry.consistent_of_plain`: a registry of plain extensions is consistent.
-/

namespace LayeredConfig

/-! ### Names of sources -/

namespace Format

private theorem split_last_inj {α : Type} {c : α} {l₁ l₂ k₁ k₂ : List α}
    (h : l₁ ++ c :: l₂ = k₁ ++ c :: k₂) (hl : c ∉ l₂) (hk : c ∉ k₂) : l₁ = k₁ ∧ l₂ = k₂ := by
  rcases List.append_eq_append_iff.mp h with ⟨r, rfl, hr⟩ | ⟨r, rfl, hr⟩
  · cases r with
    | nil => exact ⟨by simp, (List.cons.inj hr).2⟩
    | cons d r => exact absurd (by rw [(List.cons.inj hr).2]; simp) hl
  · cases r with
    | nil => exact ⟨by simp, (List.cons.inj hr).2.symm⟩
    | cons d r => exact absurd (by rw [(List.cons.inj hr).2]; simp) hk

private theorem sourceName_inj {a b : String} (h : Run.sourceName a = Run.sourceName b) :
    a = b := by
  unfold Run.sourceName at h
  exact (String.append_right_inj _).mp ((String.append_left_inj _).mp h)

private theorem indexedName_inj {a b : String} {i j : Nat}
    (h : a ++ " (document #" ++ toString i ++ ")" = b ++ " (document #" ++ toString j ++ ")") :
    a = b ∧ i = j := by
  have hhash : " (document #".toList = " (document ".toList ++ ['#'] := by decide
  have hlist := congrArg String.toList ((String.append_left_inj _).mp h)
  simp only [String.toList_append, hhash, Nat.toString_eq_ofList_toDigits, String.toList_ofList,
    ← List.append_assoc] at hlist
  rw [List.append_assoc _ ['#'], List.append_assoc _ ['#'], List.singleton_append,
    List.singleton_append] at hlist
  have hhidden (n : Nat) : '#' ∉ Nat.toDigits 10 n := Text.notMem_toDigits (by decide) n
  obtain ⟨hname, hdigits⟩ := split_last_inj hlist (hhidden i) (hhidden j)
  exact ⟨String.toList_inj.mp (List.append_cancel_right hname), Text.toDigits_inj hdigits⟩

private theorem bracket_ne_paren (a b : String) : a ++ "]" ≠ b ++ ")" := by
  intro h
  have hlast := congrArg (fun name => name.toList.getLast?) h
  have hbracket : "]".toList = [']'] := by decide
  have hparen : ")".toList = [')'] := by decide
  simp only [String.toList_append, hbracket, hparen, List.getLast?_concat] at hlast
  cases hlast

/-- The name of a document shows the location that was read and the index. -/
theorem documentName_inj {a b : String} {i j m n : Nat} (hi : i < m) (hj : j < n)
    (h : documentName (Run.sourceName a) i m = documentName (Run.sourceName b) j n) :
    a = b ∧ i = j := by
  by_cases hm : m = 1
  · by_cases hn : n = 1
    · rw [documentName, documentName, if_pos hm, if_pos hn] at h
      exact ⟨sourceName_inj h, by omega⟩
    · rw [documentName, documentName, if_pos hm, if_neg hn] at h
      exact absurd h (bracket_ne_paren _ _)
  · by_cases hn : n = 1
    · rw [documentName, documentName, if_neg hm, if_pos hn] at h
      exact absurd h.symm (bracket_ne_paren _ _)
    · rw [documentName, documentName, if_neg hm, if_neg hn] at h
      obtain ⟨hname, hindex⟩ := indexedName_inj h
      exact ⟨sourceName_inj hname, hindex⟩

/-- Documents have one name iff location and index are the same, and either both names show the
index or none does. -/
theorem documentName_eq_iff {a b : String} {i j m n : Nat} (hi : i < m) (hj : j < n) :
    documentName (Run.sourceName a) i m = documentName (Run.sourceName b) j n ↔
      a = b ∧ i = j ∧ (m = 1 ↔ n = 1) := by
  constructor
  · intro h
    obtain ⟨rfl, rfl⟩ := documentName_inj hi hj h
    refine ⟨rfl, rfl, ?_⟩
    rw [documentName, documentName] at h
    by_cases hm : m = 1 <;> by_cases hn : n = 1
    · exact iff_of_true hm hn
    · rw [if_pos hm, if_neg hn] at h
      exact absurd h (bracket_ne_paren _ _)
    · rw [if_neg hm, if_pos hn] at h
      exact absurd h.symm (bracket_ne_paren _ _)
    · exact iff_of_false hm hn
  · rintro ⟨rfl, rfl, htotal⟩
    simp only [documentName, htotal]

/-- The sources of a resource are named after it, each with its index. -/
theorem name_of_getElem? {format : Format} {name : String} {resource : Resource}
    {sources : List Source} (h : format.load name resource = .ok sources) {index : Nat}
    {source : Source} (hsource : sources[index]? = some source) :
    source.name = documentName name index sources.length := by
  obtain ⟨read, -, hsources⟩ := Failure.bind_eq_ok_iff.mp h
  obtain rfl := Except.ok.inj hsources
  rw [Format.sources, List.getElem?_mapIdx] at hsource
  obtain ⟨entries, -, rfl⟩ := Option.map_eq_some_iff.mp hsource
  rw [Format.sources, List.length_mapIdx]
  rfl

end Format

/-! ### Names of documents -/

namespace Document

private theorem source_of_ofSource {source : Source} {resolve : String → Except Failure String}
    {document : Document} (h : ofSource source resolve = .ok document) :
    document.source = source := by
  unfold ofSource at h
  obtain ⟨declared, -, h⟩ := Failure.bind_eq_ok_iff.mp h
  obtain ⟨activates, -, h⟩ := Failure.bind_eq_ok_iff.mp h
  obtain ⟨includes, -, h⟩ := Failure.bind_eq_ok_iff.mp h
  cases h
  rfl

private theorem map_source_of_mapM {sources : List Source}
    {resolve : String → Except Failure String} {documents : List Document}
    (h : (sources.mapM fun source => ofSource source resolve) = .ok documents) :
    documents.map Document.source = sources := by
  induction sources generalizing documents with
  | nil =>
    cases h
    rfl
  | cons source sources ih =>
    rw [List.mapM_cons] at h
    obtain ⟨document, hdocument, h⟩ := Failure.bind_eq_ok_iff.mp h
    obtain ⟨rest, hrest, h⟩ := Failure.bind_eq_ok_iff.mp h
    cases h
    rw [List.map_cons, source_of_ofSource hdocument, ih hrest]

/-- The documents of a resource are named after it, each with its index. -/
theorem name_of_load {format : Format} {name : String} {resource : Resource}
    {resolve : String → Except Failure String} {documents : List Document}
    (h : load format name resource resolve = .ok documents) {index : Nat} {document : Document}
    (hdocument : documents[index]? = some document) :
    document.source.name = Format.documentName name index documents.length := by
  obtain ⟨sources, hsources, hmapM⟩ := Failure.bind_eq_ok_iff.mp h
  obtain rfl := map_source_of_mapM hmapM
  have hsource : (documents.map Document.source)[index]? = some document.source := by
    rw [List.getElem?_map, hdocument]
    rfl
  rw [Format.name_of_getElem? hsources hsource, List.length_map]

end Document

/-- A file is read with one format, the one meant for its location, however it is come upon. -/
def Registry.Consistent (registry : Registry) : Prop :=
  ∀ handler ∈ registry.handlers, ∀ stem : String,
    registry.forLocation? (stem ++ "." ++ handler.extension) = some handler.index

namespace Plan

/-- A look for a stem reads with the format of the handler, is for the profile or for none, and is
at a file with the extension of the handler. -/
theorem look_of_mem_stemProbes {processed : List Profile} {profile : Profile} {stem : String}
    {handler : Handler} {probe : Probe} (h : probe ∈ stemProbes processed profile stem handler) :
    probe.index = some handler.index ∧
      (probe.selector = profile ∨ probe.selector = .unscoped) ∧
      ∃ front, probe.location = front ++ "." ++ handler.extension := by
  unfold stemProbes at h
  dsimp only at h
  split at h
  · rw [List.mem_singleton.mp h]
    exact ⟨rfl, .inl rfl, stem, rfl⟩
  · simp only [List.cons_append, List.mem_cons, List.mem_append, List.mem_map,
      List.not_mem_nil, or_false] at h
    rcases h with rfl | rfl | ⟨other, -, rfl⟩ | rfl
    · exact ⟨rfl, .inr rfl, _, rfl⟩
    · exact ⟨rfl, .inl rfl, _, rfl⟩
    · exact ⟨rfl, .inl rfl, _, rfl⟩
    · exact ⟨rfl, .inl rfl, stem, rfl⟩

/-- In a consistent registry all looks read with the format that is meant for the location. -/
theorem index_of_consistent {plan : Plan} (h : plan.registry.Consistent)
    {processed : List Profile} {profile : Profile} {root : String} {probe : Probe}
    (hprobe : probe ∈ plan.locationProbes processed profile root) :
    probe.index = plan.registry.forLocation? probe.location := by
  unfold locationProbes at hprobe
  split at hprobe
  · obtain ⟨name, -, hprobe⟩ := List.mem_flatMap.mp hprobe
    obtain ⟨handler, hhandler, hprobe⟩ := List.mem_flatMap.mp hprobe
    obtain ⟨hindex, -, front, hlocation⟩ := look_of_mem_stemProbes hprobe
    rw [hindex, hlocation, h handler hhandler]
  · rw [List.mem_singleton.mp hprobe]

end Plan

/-! ### Names in a memo -/

/-- The documents that a memo keeps are named after a location of their resource that may be
read with their format, where `reads` says so. -/
def DocumentMemo.Named (ctx : LoadContext) (reads : Nat → String → Prop) (memo : DocumentMemo) :
    Prop :=
  ∀ index identity documents, memo.entries.lookup (index, identity) = some documents →
    ∃ location, reads index location ∧ (ctx.store.resource location).identity = identity ∧
      ∀ i document, documents[i]? = some document →
        document.source.name =
          Format.documentName (Run.sourceName location) i documents.length

/-! ### Names in a load -/

/-- What visits find under one name is one document of one file. -/
def NamesApart (visits : List Visit) : Prop :=
  ∀ u ∈ visits, ∀ v ∈ visits, ∀ p ∈ u.found, ∀ q ∈ v.found, p.name = q.name →
    u.documents = v.documents ∧ p.index = q.index

theorem Visit.getElem?_of_mem_found {visit : Visit} {pickup : Pickup}
    (h : pickup ∈ visit.found) : visit.documents[pickup.index]? = some pickup.document :=
  (mem_found_iff.mp h).1

/-- Where a probe finds a document, the memo keeps the documents of its resource. -/
theorem Probe.lookup_of_documents {probe : Probe} {store : Store} {memo : DocumentMemo}
    {i : Nat} {document : Document}
    (h : (probe.documents store memo)[i]? = some document) :
    ∃ index, probe.index = some index ∧
      memo.entries.lookup (index, (store.resource probe.location).identity) =
        some (probe.documents store memo) := by
  unfold documents at h ⊢
  dsimp only at h ⊢
  split at h
  · next hthere =>
    rw [if_pos hthere]
    cases hindex : probe.index with
    | none => simp [hindex] at h
    | some index =>
      refine ⟨index, rfl, ?_⟩
      cases hlookup : memo.entries.lookup (index, (store.resource probe.location).identity) with
      | none => simp [hindex, hlookup] at h
      | some kept => simp [hlookup]
  · simp at h

namespace Loader

variable {loader : Loader} {store : Store} {env : Environment} {report : Report}

theorem documents_of_mem_visits {visit : Visit} (h : visit ∈ loader.visits store env report) :
    visit.documents = visit.probe.documents store (loader.lastRun store env).memo := by
  obtain ⟨sweep, -, h⟩ := List.mem_flatMap.mp h
  exact Sweep.documents_of_mem_visits h

/-- Two visits of one resource that read it with one format have the same documents. -/
theorem documents_eq {u v : Visit} {p q : Pickup}
    (hu : u ∈ loader.visits store env report) (hv : v ∈ loader.visits store env report)
    (hp : p ∈ u.found) (hq : q ∈ v.found) (hindex : u.probe.index = v.probe.index)
    (hidentity : (store.resource u.probe.location).identity =
      (store.resource v.probe.location).identity) : u.documents = v.documents := by
  have hdocument := Visit.getElem?_of_mem_found hp
  have hother := Visit.getElem?_of_mem_found hq
  rw [documents_of_mem_visits hu] at hdocument ⊢
  rw [documents_of_mem_visits hv] at hother ⊢
  obtain ⟨index, hu, hlookup⟩ := Probe.lookup_of_documents hdocument
  obtain ⟨index', hv, hlookup'⟩ := Probe.lookup_of_documents hother
  obtain rfl : index = index' := Option.some.inj (hu.symm.trans (hindex.trans hv))
  rw [hidentity] at hlookup
  exact Option.some.inj (hlookup.symm.trans hlookup')

namespace Course

private theorem named_memo (course : Course loader store env report)
    (reads : Nat → String → Prop) (hreads : ∀ processed profile root,
      ∀ probe ∈ (loader.context store report).plan.locationProbes processed profile root,
        ∀ index, probe.index = some index → reads index probe.location) :
    (loader.lastRun store env).memo.Named (loader.context store report) reads := by
  intro index identity documents hkept
  obtain ⟨location, format, hread, hidentity, -, hload⟩ :=
    course.faithful_memo index identity documents hkept
  obtain ⟨processed, profile, root, probe, hprobe, hindex, rfl⟩ := hread
  exact ⟨probe.location, hreads _ _ _ probe hprobe index hindex, hidentity,
    fun i document => Document.name_of_load hload⟩

/-- A document is named after a location of its resource, with its place in the file. -/
theorem exists_name_eq (course : Course loader store env report) {visit : Visit}
    {pickup : Pickup} (hvisit : visit ∈ loader.visits store env report)
    (hfound : pickup ∈ visit.found) :
    pickup.index < visit.documents.length ∧ ∃ location,
      (store.resource location).identity = (store.resource visit.probe.location).identity ∧
      pickup.name =
        Format.documentName (Run.sourceName location) pickup.index visit.documents.length := by
  have hdocument := Visit.getElem?_of_mem_found hfound
  have hkept := documents_of_mem_visits hvisit
  obtain ⟨index, -, hlookup⟩ := Probe.lookup_of_documents (hkept ▸ hdocument)
  rw [← hkept] at hlookup
  have hnamed := course.named_memo (fun _ _ => True) fun _ _ _ _ _ _ _ => trivial
  obtain ⟨location, -, hidentity, hnames⟩ := hnamed _ _ _ hlookup
  obtain ⟨hlt, -⟩ := List.getElem?_eq_some_iff.mp hdocument
  exact ⟨hlt, location, hidentity, hnames pickup.index pickup.document hdocument⟩

/-- The documents of one file have different names. -/
theorem index_eq_of_name_eq (course : Course loader store env report) {u v : Visit}
    {p q : Pickup} (hu : u ∈ loader.visits store env report) (hp : p ∈ u.found)
    (hq : q ∈ v.found) (hdocuments : u.documents = v.documents) (hname : p.name = q.name) :
    p.index = q.index := by
  have hdocument := Visit.getElem?_of_mem_found hp
  have hother := Visit.getElem?_of_mem_found hq
  rw [← hdocuments] at hother
  have hkept := documents_of_mem_visits hu
  obtain ⟨index, -, hlookup⟩ := Probe.lookup_of_documents (hkept ▸ hdocument)
  rw [← hkept] at hlookup
  have hnamed := course.named_memo (fun _ _ => True) fun _ _ _ _ _ _ _ => trivial
  obtain ⟨location, -, -, hnames⟩ := hnamed _ _ _ hlookup
  have hboth := (hnames p.index p.document hdocument).symm.trans
    (hname.trans (hnames q.index q.document hother))
  obtain ⟨hi, -⟩ := List.getElem?_eq_some_iff.mp hdocument
  obtain ⟨hj, -⟩ := List.getElem?_eq_some_iff.mp hother
  exact (Format.documentName_inj hi hj hboth).2

/-- In a load with a consistent registry, names tell the documents apart. -/
theorem namesApart (course : Course loader store env report)
    (hconsistent : loader.registry.Consistent) :
    NamesApart (loader.visits store env report) := by
  intro u hu v hv p hp q hq hname
  have hnamed := course.named_memo
    (fun index location => loader.registry.forLocation? location = some index)
    fun _ _ _ probe hprobe index hindex =>
      (Plan.index_of_consistent hconsistent hprobe).symm.trans hindex
  have hdocument := Visit.getElem?_of_mem_found hp
  have hother := Visit.getElem?_of_mem_found hq
  have hudocuments := documents_of_mem_visits hu
  have hvdocuments := documents_of_mem_visits hv
  obtain ⟨index, -, hlookup⟩ := Probe.lookup_of_documents (hudocuments ▸ hdocument)
  obtain ⟨index', -, hlookup'⟩ := Probe.lookup_of_documents (hvdocuments ▸ hother)
  rw [← hudocuments] at hlookup
  rw [← hvdocuments] at hlookup'
  obtain ⟨location, hformat, hidentity, hnames⟩ := hnamed _ _ _ hlookup
  obtain ⟨location', hformat', hidentity', hnames'⟩ := hnamed _ _ _ hlookup'
  have hboth := (hnames p.index p.document hdocument).symm.trans
    (hname.trans (hnames' q.index q.document hother))
  obtain ⟨hi, -⟩ := List.getElem?_eq_some_iff.mp hdocument
  obtain ⟨hj, -⟩ := List.getElem?_eq_some_iff.mp hother
  obtain ⟨rfl, hindexes⟩ := Format.documentName_inj hi hj hboth
  refine ⟨?_, hindexes⟩
  obtain rfl : index = index' := Option.some.inj (hformat.symm.trans hformat')
  rw [← hidentity] at hlookup
  rw [← hidentity'] at hlookup'
  exact Option.some.inj (hlookup.symm.trans hlookup')

end Course

end Loader

/-! ### Consistent registries -/

namespace Format

/-- A file whose name ends with a dot and an extension has no other extension without dots. -/
theorem hasExtension_append {stem extension other : String}
    (hlower : extension.toList.map Char.toLower = extension.toList)
    (hdot : '.' ∉ extension.toList) (hother : '.' ∉ other.toList) :
    hasExtension (stem ++ "." ++ extension) other = (other == extension) := by
  have hlocation : (stem ++ "." ++ extension).toList.map Char.toLower =
      stem.toList.map Char.toLower ++ '.' :: extension.toList := by
    have hpoint : ".".toList.map Char.toLower = ['.'] := by decide
    rw [String.toList_append, String.toList_append, List.map_append, List.map_append, hpoint,
      hlower, List.append_assoc, List.singleton_append]
  rw [hasExtension, hlocation, Bool.eq_iff_iff, List.isSuffixOf_iff_suffix, beq_iff_eq]
  constructor
  · rintro ⟨front, hfront⟩
    exact String.toList_inj.mp (split_last_inj hfront hother hdot).2
  · rintro rfl
    exact List.suffix_append _ _

/-- Where no extension has a dot, a file is meant for the formats that declare its extension. -/
theorem canRead_append {format : Format} {extension : String}
    (hdots : ∀ other ∈ format.extensions, '.' ∉ other.toList)
    (hlower : extension.toList.map Char.toLower = extension.toList)
    (hdot : '.' ∉ extension.toList) (stem : String) :
    format.canRead (stem ++ "." ++ extension) = format.extensions.contains extension := by
  rw [canRead, Bool.eq_iff_iff, List.any_eq_true, List.contains_iff_mem]
  constructor
  · rintro ⟨other, hother, hsuffix⟩
    rw [hasExtension_append hlower hdot (hdots other hother)] at hsuffix
    rwa [← beq_iff_eq.mp hsuffix]
  · intro hmem
    refine ⟨extension, hmem, ?_⟩
    rw [hasExtension_append hlower hdot hdot]
    exact beq_self_eq_true _

end Format

namespace Registry

/-- The first format that declares an extension is the one that handles it. -/
private theorem index_find?_declared {formats : List Format} {location extension : String}
    (h : ∀ format ∈ formats, format.canRead location = format.extensions.contains extension)
    (number : Nat → Nat) :
    ((formats.mapIdx fun index format => format.extensions.map fun extension =>
      (⟨number index, extension⟩ : Handler)).flatten.find?
        fun handler => handler.extension == extension).map Handler.index =
      (formats.findIdx? fun format => format.canRead location).map number := by
  induction formats generalizing number with
  | nil => rfl
  | cons format formats ih =>
    have hrest := ih (fun other hother => h other (List.mem_cons_of_mem _ hother))
      fun index => number (index + 1)
    have hfirst := h format List.mem_cons_self
    rw [List.mapIdx_cons, List.flatten_cons, List.find?_append, List.findIdx?_cons, List.find?_map]
    cases hfound : format.extensions.find? fun other => other == extension with
    | none =>
      have hread : format.canRead location = false := by
        rw [hfirst, ← Bool.not_eq_true, List.contains_iff_mem]
        exact fun hmem => List.find?_eq_none.mp hfound extension hmem (beq_self_eq_true _)
      rw [hread, Function.comp_def, hfound, Option.map_none, Option.none_or, hrest]
      simp [Function.comp_def]
    | some other =>
      obtain rfl : other = extension := by simpa using List.find?_some hfound
      have hread : format.canRead location = true :=
        hfirst.trans (List.contains_iff_mem.mpr (List.mem_of_find?_eq_some hfound))
      rw [hread, Function.comp_def, hfound]
      rfl

/-- A registry is consistent if no extension has a dot or a capital letter. -/
theorem consistent_of_plain {registry : Registry}
    (h : ∀ format ∈ registry.formats, ∀ extension ∈ format.extensions,
      extension.toList.map Char.toLower = extension.toList ∧ '.' ∉ extension.toList) :
    registry.Consistent := by
  intro handler hhandler stem
  have hfirst := find?_of_mem_eraseDupsBy (f := Handler.extension) hhandler
  obtain ⟨hlower, hdot⟩ : handler.extension.toList.map Char.toLower = handler.extension.toList ∧
      '.' ∉ handler.extension.toList := by
    have hmem := List.mem_of_find?_eq_some hfirst
    obtain ⟨handlers, hhandlers, hmem⟩ := List.mem_flatten.mp hmem
    obtain ⟨index, hindex, rfl⟩ := List.mem_mapIdx.mp hhandlers
    obtain ⟨extension, hextension, rfl⟩ := List.mem_map.mp hmem
    exact h _ (List.getElem_mem hindex) _ hextension
  have hread : ∀ format ∈ registry.formats,
      format.canRead (stem ++ "." ++ handler.extension) =
        format.extensions.contains handler.extension := fun format hformat =>
    Format.canRead_append (fun other hother => (h format hformat other hother).2) hlower hdot stem
  have hindex := index_find?_declared hread id
  change (registry.declarations.find? fun other => other.extension == handler.extension).map
    Handler.index = (registry.forLocation? (stem ++ "." ++ handler.extension)).map id at hindex
  rw [hfirst, Option.map_id_fun] at hindex
  exact hindex.symm

end Registry

end LayeredConfig
