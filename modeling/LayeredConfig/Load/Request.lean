import LayeredConfig.Document

/-!
# The profiles that files can ask for

The documents of a store are finitely many, and so are the profiles that they ask for. What a
document asks for depends on its keys and texts alone, not on its name or its place.

## Main definitions

* `Document.requests`: the profiles that a document activates or includes.
* `Registry.requestable`: the profiles that some document of a store can ask for.

## Main results

* `Document.requests_of_load`: what a document of a store asks for is among them.
-/

namespace LayeredConfig

namespace Source

/-- The keys of a source with their texts. -/
def texts (source : Source) : List (String × String) :=
  Pairs.mapValues Property.value source.entries

private theorem value_get? {a b : Source} (hkind : a.kind = b.kind) (htexts : a.texts = b.texts)
    (key : String) : (a.get? key).map Property.value = (b.get? key).map Property.value := by
  have h (k : String) : (Pairs.get? k a.entries).map Property.value =
      (Pairs.get? k b.entries).map Property.value := by
    have := congrArg (Pairs.get? k) htexts
    simpa [texts, Pairs.get?_mapValues] using this
  have hk := h key
  have he := h (environmentName key)
  unfold get?
  rw [hkind]
  cases ha : Pairs.get? key a.entries <;> cases hb : Pairs.get? key b.entries <;>
    cases hkb : b.kind <;> simp_all

private theorem mapM_value {f : String → Except Failure String} (ps qs : List Property)
    (h : ps.map Property.value = qs.map Property.value) :
    (ps.mapM fun p => f p.value) = qs.mapM fun p => f p.value := by
  have key (l : List Property) : (l.mapM fun p => f p.value) = (l.map Property.value).mapM f := by
    rw [List.mapM_map]; rfl
  rw [key, key, h]

private theorem filterMap_takeWhile_value (as bs : List (Option Property))
    (h : as.map (Option.map Property.value) = bs.map (Option.map Property.value)) :
    ((as.takeWhile Option.isSome).filterMap id).map Property.value =
      ((bs.takeWhile Option.isSome).filterMap id).map Property.value := by
  induction as generalizing bs with
  | nil => cases bs <;> simp_all
  | cons a as ih =>
    cases bs with
    | nil => simp at h
    | cons b bs =>
      simp only [List.map_cons, List.cons.injEq] at h
      have := ih bs h.2
      cases a <;> cases b <;> simp_all

private theorem value_indexed {a b : Source} (hkind : a.kind = b.kind)
    (htexts : a.texts = b.texts) (key : String) :
    (a.indexed key).map Property.value = (b.indexed key).map Property.value := by
  have hsize : a.size = b.size := by
    have := congrArg List.length htexts
    simpa [texts, Pairs.mapValues, size] using this
  unfold indexed
  apply filterMap_takeWhile_value
  simp [hsize, Function.comp_def, value_get? hkind htexts]

/-- The list that a key holds depends on the texts of a source alone. -/
theorem list?_congr {a b : Source} (hkind : a.kind = b.kind) (htexts : a.texts = b.texts)
    (resolve : String → Except Failure String) (key : String) :
    a.list? resolve key = b.list? resolve key := by
  have hget := value_get? hkind htexts key
  have hindexed := mapM_value (f := resolve) _ _ (value_indexed hkind htexts key)
  unfold list?
  cases ha : a.get? key <;> cases hb : b.get? key <;> simp_all

end Source

namespace Document

/-- The profiles that a document asks for. -/
def requests (document : Document) : List Profile :=
  document.activates ++ document.includes

/-- The profiles that a document with the given entries asks for. -/
def requestsOf (resolve : String → Except Failure String) (entries : List Entry) :
    List Profile :=
  match ofSource (Format.source "" "" 0 entries) resolve with
  | .ok document => document.requests
  | .error _ => []

private theorem texts_source (name location : String) (index : Nat) (entries : List Entry) :
    (Format.source name location index entries).texts =
      Pairs.ofList (entries.map fun entry => (entry.key, entry.text)) := by
  simp only [Source.texts, Format.source, Pairs.mapValues_ofList]
  simp [Pairs.mapValues, Function.comp_def]

theorem requests_eq_requestsOf {name location : String} {index : Nat} {entries : List Entry}
    {resolve : String → Except Failure String} {document : Document}
    (h : ofSource (Format.source name location index entries) resolve = .ok document) :
    document.requests = requestsOf resolve entries := by
  have htexts := (texts_source name location index entries).trans
    (texts_source "" "" 0 entries).symm
  have hlist := Source.list?_congr (Eq.refl SourceKind.plain) htexts resolve
  unfold requestsOf
  unfold ofSource at h ⊢
  simp only [hlist] at h
  generalize (Format.source "" "" 0 entries).list? resolve Key.declared = declared at h ⊢
  generalize (Format.source "" "" 0 entries).list? resolve Key.active = activates at h ⊢
  generalize (Format.source "" "" 0 entries).list? resolve Key.includes = includes at h ⊢
  cases declared with
  | error failure => simp [bind, Except.bind] at h
  | ok declared =>
    cases activates with
    | error failure => simp [bind, Except.bind] at h
    | ok activates =>
      cases includes with
      | error failure => simp [bind, Except.bind] at h
      | ok includes =>
        simp only [bind, Except.bind, pure, Except.pure, Except.ok.injEq] at h ⊢
        subst h
        rfl

end Document

namespace Body

/-- The documents that can be read from any of the given texts. -/
def readings (contents : List String) : Body → List (List Entry)
  | fixed documents => documents
  | parsed read => (contents.filterMap read).flatten

end Body

/-- The profiles that some document of the given texts can ask for. -/
def Registry.requestable (registry : Registry) (contents : List String)
    (resolve : String → Except Failure String) : List Profile :=
  registry.formats.flatMap fun format =>
    (format.body.readings contents).flatMap (Document.requestsOf resolve)

namespace Store

theorem mem_contents_of_get? {identity text : String}
    {byLocation : List (String × String)}
    (h : Pairs.get? identity byLocation = some text) :
    text ∈ (Store.texts byLocation).contents := by
  induction byLocation with
  | nil => simp [Pairs.get?] at h
  | cons pair pairs ih =>
    simp only [Pairs.get?] at h
    split at h
    · cases h; simp [contents]
    · have := ih h
      simp only [contents, List.map_cons, List.mem_cons] at this ⊢
      exact .inr this

private theorem mem_of_lookup {names : List String} {node : FileNode}
    {entries : List (List String × FileNode)} (h : entries.lookup names = some node) :
    ∃ path, (path, node) ∈ entries := by
  induction entries with
  | nil => simp at h
  | cons entry entries ih =>
    rw [List.lookup_cons] at h
    split at h
    · cases h; exact ⟨entry.1, by simp⟩
    · obtain ⟨path, hpath⟩ := ih h
      exact ⟨path, List.mem_cons_of_mem _ hpath⟩

private theorem readText_mem {tree : FileTree} {base : String} {classpath : List String}
    {home : Option String} {path text : String} (h : tree.readText path = .ok text) :
    text ∈ (Store.fileTree tree base classpath home).contents := by
  have hfind : tree.find path = .ok (.file (some text)) := by
    unfold FileTree.readText at h
    split at h <;> simp_all
  have hnode : ∃ names, tree.node? names = some (.file (some text)) := by
    unfold FileTree.find at hfind
    split at hfind
    · cases hfind
    · next names _ =>
      split at hfind
      · next node hnode => exact ⟨names, by simp_all⟩
      · cases hfind
  obtain ⟨names, hnode⟩ := hnode
  have hlookup : tree.entries.lookup names = some (.file (some text)) := by
    unfold FileTree.node? at hnode
    split at hnode
    · simp_all
    · split at hnode <;> simp_all
  obtain ⟨entry, hentry⟩ := mem_of_lookup hlookup
  simp only [contents, List.mem_filterMap]
  exact ⟨_, hentry, rfl⟩

/-- The text of a resource is among the texts of its store. -/
theorem mem_contents_of_resource {store : Store} {location text : String}
    (h : (store.resource location).content = .ok text) : text ∈ store.contents := by
  cases store with
  | texts byLocation =>
    simp only [resource, Resource.ofText] at h
    cases hget : Pairs.get? (normalized location) byLocation with
    | none => simp [hget] at h
    | some found =>
      simp only [hget, Option.elim_some, Except.ok.injEq] at h
      subst h
      exact mem_contents_of_get? hget
  | fileTree tree base classpath home =>
    simp only [resource] at h
    split at h
    · exact readText_mem h
    · simp [Resource.ofText] at h

end Store

namespace Format

private theorem documents_subset {format : Format} {store : Store} {location : String}
    {documents : List (List Entry)}
    (h : format.documents (store.resource location) = .ok documents) :
    ∀ entries ∈ documents, entries ∈ format.body.readings store.contents := by
  intro entries hentries
  unfold Format.documents at h
  cases hbody : format.body with
  | fixed fixedDocuments =>
    simp only [hbody, Except.ok.injEq] at h
    simpa [Body.readings, h] using hentries
  | parsed read =>
    simp only [hbody, Resource.text] at h
    cases hcontent : (store.resource location).content with
    | error fault => simp [hcontent, bind, Except.bind] at h
    | ok text =>
      simp only [hcontent, bind, Except.bind] at h
      cases hread : read text with
      | none => simp [hread, throw, throwThe, MonadExceptOf.throw] at h
      | some found =>
        simp only [hread, pure, Except.pure, Except.ok.injEq] at h
        subst h
        simp only [Body.readings, List.mem_flatten, List.mem_filterMap]
        exact ⟨found, ⟨text, Store.mem_contents_of_resource hcontent, hread⟩, hentries⟩

private theorem exists_entries_of_mem_sources {name location : String}
    {documents : List (List Entry)} {found : Source}
    (h : found ∈ sources name location documents) :
    ∃ name index entries, entries ∈ documents ∧ found = source name location index entries := by
  simp only [sources, List.mem_mapIdx] at h
  obtain ⟨index, hindex, rfl⟩ := h
  exact ⟨_, index, documents[index], List.getElem_mem hindex, rfl⟩

end Format

/-- Every result of a list of steps is the result of one of them. -/
theorem exists_of_mem_mapM {α β : Type} {f : α → Except Failure β} {as : List α} :
    ∀ {bs : List β}, as.mapM f = .ok bs → ∀ b ∈ bs, ∃ a ∈ as, f a = .ok b := by
  induction as with
  | nil =>
    intro bs h b hb
    cases h
    cases hb
  | cons a as ih =>
    intro bs h b hb
    rw [List.mapM_cons] at h
    cases ha : f a with
    | error failure => simp [ha, bind, Except.bind] at h
    | ok first =>
      cases hrest : as.mapM f with
      | error failure => simp [ha, hrest, bind, Except.bind] at h
      | ok rest =>
        simp only [ha, hrest, bind, Except.bind, pure, Except.pure, Except.ok.injEq] at h
        subst h
        rcases List.mem_cons.mp hb with rfl | hb
        · exact ⟨a, by simp, ha⟩
        · obtain ⟨a', ha', hf⟩ := ih hrest b hb
          exact ⟨a', List.mem_cons_of_mem _ ha', hf⟩

/-- Whatever a document of a store asks for is among the profiles that the store can ask
for. -/
theorem Document.requests_of_load {registry : Registry} {store : Store} {format : Format}
    {name location : String} {resolve : String → Except Failure String}
    {documents : List Document} (hformat : format ∈ registry.formats)
    (h : Document.load format name (store.resource location) resolve = .ok documents) :
    ∀ document ∈ documents, ∀ profile ∈ document.requests,
      profile ∈ registry.requestable store.contents resolve := by
  intro document hdocument profile hprofile
  unfold Document.load Format.load at h
  cases hread : format.documents (store.resource location) with
  | error failure => simp [hread, bind, Except.bind] at h
  | ok read =>
    rw [hread] at h
    obtain ⟨found, hfound, hof⟩ := exists_of_mem_mapM h document hdocument
    obtain ⟨name', index, entries, hentries, rfl⟩ := Format.exists_entries_of_mem_sources hfound
    rw [requests_eq_requestsOf hof] at hprofile
    simp only [Registry.requestable, List.mem_flatMap]
    exact ⟨format, hformat, entries, Format.documents_subset hread entries hentries, hprofile⟩

end LayeredConfig
