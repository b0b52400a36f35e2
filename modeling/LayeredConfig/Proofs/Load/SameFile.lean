import LayeredConfig.Format.BuiltIn
import LayeredConfig.Proofs.Load.Naming

/-!
# Files that are come upon twice

In a file tree, several locations can lead to one file: a location on the class path and one in
the file system, or one with a dot in it and one without. A load keeps what it reads of a file
under the text of the path to it, and names the documents after the location where it first came
by that path. So a document is put into the chain once for every path text that leads to it.
Paths from the root without empty names, dots and steps upwards are the same text whenever they
lead to the same file; with them alone, no document comes twice.

## Main definitions

* `Path.IsPlain`: a path from the root that says outright which names lead to the file.
* `DocumentOrigin`, `Loader.ReadFrom`: the document from which a source was read.

## Main results

* `FileTree.path_eq_of_walk`: plain paths that lead to one file are equal.
* `Loader.Course.name_eq_iff`: when a document has one name at two visits.
* `Loader.no_document_twice_iff`: when no document is put into the chain twice.
-/

namespace LayeredConfig

/-! ### Plain paths -/

/-- A path from the root that has no empty name, no dot and no step upwards. -/
def Path.IsPlain (path : String) : Prop :=
  isAbsolute path = true ∧ ∀ name ∈ (path.toList.splitOn '/').tail,
    name ≠ [] ∧ name ≠ here ∧ name ≠ above

instance : DecidablePred Path.IsPlain := fun path =>
  inferInstanceAs (Decidable (_ ∧ ∀ name ∈ (path.toList.splitOn '/').tail, _))

private theorem Path.IsPlain.splitOn_eq {path : String} (h : IsPlain path) :
    path.toList.splitOn '/' = [] :: (path.toList.splitOn '/').tail := by
  have hhead : path.toList.head? = some '/' := by simpa [isAbsolute] using h.1
  obtain ⟨rest, hrest⟩ := List.head?_eq_some_iff.mp hhead
  simp [hrest, List.splitOn_cons_eq_if_modifyHead]

namespace FileTree

variable {tree : FileTree} {start names : List String} {path other : String}

/-- A step does not look into files. -/
private theorem step_ne_notText (tree : FileTree) (start : List String) (name : String) :
    tree.step start name ≠ .error .notText := by
  unfold step
  split
  · simp
  · simp
  · split_ifs
    · simp
    · simp
    · split <;> simp

/-- Nor does a walk. -/
theorem walk_ne_notText (tree : FileTree) (path : String) :
    tree.walk path ≠ .error .notText := by
  have hsteps (names start : List String) :
      names.foldlM tree.step start ≠ .error .notText := by
    induction names generalizing start with
    | nil => simp [pure, Except.pure]
    | cons name names ih =>
      rw [List.foldlM_cons]
      have hstep := step_ne_notText tree start name
      cases hnext : tree.step start name with
      | error fault => rwa [hnext] at hstep
      | ok next => exact ih next
  unfold walk
  split
  · simp
  · exact hsteps _ _

/-- A step from the empty name stays where it is. -/
private theorem step_empty {last : List String} (h : tree.step start "" = .ok last) :
    last = start := by
  unfold step at h
  split at h
  · cases h
  · cases h
  · rw [if_pos (.inl rfl)] at h
    cases h
    rfl

/-- A step to a plain name goes down. -/
private theorem step_plain {name : List Char} {last : List String}
    (hplain : name ≠ [] ∧ name ≠ Path.here ∧ name ≠ Path.above)
    (h : tree.step start (String.ofList name) = .ok last) :
    last = start ++ [String.ofList name] := by
  have hempty : String.ofList name ≠ "" := mt String.ofList_inj.mp hplain.1
  have hhere : String.ofList name ≠ "." := mt String.ofList_inj.mp hplain.2.1
  have habove : String.ofList name ≠ ".." := mt String.ofList_inj.mp hplain.2.2
  unfold step at h
  split at h
  · cases h
  · cases h
  · rw [if_neg (not_or.mpr ⟨hempty, hhere⟩), if_neg habove] at h
    split at h
    · cases h
      rfl
    · cases h

private theorem foldlM_plain {segments : List (List Char)} {last : List String}
    (hplain : ∀ name ∈ segments, name ≠ [] ∧ name ≠ Path.here ∧ name ≠ Path.above)
    (h : (segments.map String.ofList).foldlM tree.step start = .ok last) :
    last = start ++ segments.map String.ofList := by
  induction segments generalizing start with
  | nil =>
    cases h
    simp
  | cons name segments ih =>
    rw [List.map_cons, List.foldlM_cons] at h
    cases hnext : tree.step start (String.ofList name) with
    | error fault => simp [hnext, bind, Except.bind] at h
    | ok next =>
      rw [hnext] at h
      have hrest := ih (fun other hother => hplain other (List.mem_cons_of_mem _ hother)) h
      rw [hrest, step_plain (hplain name List.mem_cons_self) hnext]
      simp

/-- A plain path leads to the names between its slashes. -/
theorem names_of_walk (hplain : Path.IsPlain path) (h : tree.walk path = .ok names) :
    names = (path.toList.splitOn '/').tail.map String.ofList := by
  unfold walk at h
  split at h
  · cases h
  · rw [if_pos hplain.1, hplain.splitOn_eq] at h
    simp only [List.map_cons, List.foldlM_cons] at h
    cases hnext : tree.step [] (String.ofList []) with
    | error fault => simp [hnext, bind, Except.bind] at h
    | ok next =>
      obtain rfl := step_empty hnext
      rw [hnext] at h
      simpa using foldlM_plain hplain.2 h

/-- Plain paths that lead to one file are equal. -/
theorem path_eq_of_walk (hpath : Path.IsPlain path) (hother : Path.IsPlain other)
    (h : tree.walk path = .ok names) (h' : tree.walk other = .ok names) : path = other := by
  have hnames : (path.toList.splitOn '/').tail = (other.toList.splitOn '/').tail :=
    List.map_injective_iff.mpr (fun _ _ => String.ofList_inj.mp)
      ((names_of_walk hpath h).symm.trans (names_of_walk hother h'))
  have hsplit : path.toList.splitOn '/' = other.toList.splitOn '/' := by
    rw [hpath.splitOn_eq, hother.splitOn_eq, hnames]
  have hjoin := congrArg (['/'].intercalate ·) hsplit
  simp only [List.intercalate_splitOn] at hjoin
  exact String.toList_inj.mp hjoin

end FileTree

/-! ### Where sources come from -/

/-- The names from the root of a file tree to the file that a location leads to. -/
def Store.file? (store : Store) (location : String) : Option (List String) :=
  match store with
  | .texts _ => none
  | .fileTree tree base classpath home =>
    (path? tree base classpath home location).bind fun path => (tree.walk path).toOption

/-- A document of a file tree: the names from the root to its file, the index of the format with
which it is read, and its index among the documents of the file. -/
structure DocumentOrigin where
  file : List String
  format : Nat
  index : Nat
  deriving DecidableEq, Repr

/-- The document that a visit picks up. -/
def Visit.origin? (visit : Visit) (store : Store) (pickup : Pickup) : Option DocumentOrigin :=
  match store.file? visit.probe.location, visit.probe.index with
  | some file, some format => some { file, format, index := pickup.index }
  | _, _ => none

theorem Visit.origin?_eq_some_iff {visit : Visit} {store : Store} {pickup : Pickup}
    {origin : DocumentOrigin} :
    visit.origin? store pickup = some origin ↔
      store.file? visit.probe.location = some origin.file ∧
        visit.probe.index = some origin.format ∧ pickup.index = origin.index := by
  obtain ⟨file, format, index⟩ := origin
  unfold origin?
  cases store.file? visit.probe.location <;> cases visit.probe.index <;> simp

section

variable {tree : FileTree} {base : String} {classpath : List String} {home : Option String}

/-- A location leads to a file by a path. -/
theorem Store.file?_eq_some_iff {location : String} {file : List String} :
    (fileTree tree base classpath home).file? location = some file ↔
      ∃ path, path? tree base classpath home location = some path ∧ tree.walk path = .ok file := by
  unfold file?
  rw [Option.bind_eq_some_iff]
  refine exists_congr fun path => and_congr_right fun _ => ?_
  cases tree.walk path <;> simp [Except.toOption]

/-- The identity of the resource at a location is the path by which the location leads there. -/
theorem Store.walk_identity {location : String} {file : List String}
    (h : (fileTree tree base classpath home).file? location = some file) :
    tree.walk ((fileTree tree base classpath home).resource location).identity = .ok file := by
  obtain ⟨path, hpath, hwalk⟩ := file?_eq_some_iff.mp h
  simpa [resource, hpath, Resource.ofFile] using hwalk

/-- What is there is a file that the location leads to. -/
theorem Store.exists_file {location : String}
    (h : ((fileTree tree base classpath home).resource location).isThere = true) :
    ∃ file, (fileTree tree base classpath home).file? location = some file := by
  unfold resource at h
  dsimp only at h
  split at h
  · next path hpath =>
    cases hwalk : tree.walk path with
    | ok names => exact ⟨names, file?_eq_some_iff.mpr ⟨path, hpath, hwalk⟩⟩
    | error fault =>
      have hfault : fault ≠ .notText := by
        rintro rfl
        exact tree.walk_ne_notText path hwalk
      simp [Resource.isThere, Resource.ofFile, FileTree.readText, FileTree.find, hwalk] at h
  · cases h

end

/-- A probe finds documents only where something is. -/
theorem Probe.isThere_of_documents {probe : Probe} {store : Store} {memo : DocumentMemo}
    {i : Nat} {document : Document} (h : (probe.documents store memo)[i]? = some document) :
    (store.resource probe.location).isThere = true := by
  unfold documents at h
  dsimp only at h
  split at h
  · next hthere => exact (Bool.and_eq_true_iff.mp hthere).1
  · simp at h

namespace Loader

variable {loader : Loader} {store : Store} {env : Environment} {report : Report}
  {u v : Visit} {p q : Pickup} {tree : FileTree} {base : String} {classpath : List String}
  {home : Option String}

/-- A load reads the source of the given name from the document. -/
def ReadFrom (loader : Loader) (store : Store) (env : Environment) (report : Report)
    (name : String) (origin : DocumentOrigin) : Prop :=
  ∃ visit ∈ loader.visits store env report, ∃ pickup ∈ visit.found,
    pickup.name = name ∧ visit.origin? store pickup = some origin

/-- Different sources that a load adds were read from different documents. -/
def ReadsOnce (loader : Loader) (store : Store) (env : Environment) (report : Report) : Prop :=
  ∀ a ∈ report.added, ∀ b ∈ report.added, ∀ origin,
    loader.ReadFrom store env report a origin → loader.ReadFrom store env report b origin → a = b

/-- Visits that pick up one document come to it by one path. -/
def ComesByOnePath (loader : Loader) (store : Store) (env : Environment) (report : Report) :
    Prop :=
  ∀ u ∈ loader.visits store env report, ∀ v ∈ loader.visits store env report,
    ∀ p ∈ u.found, ∀ q ∈ v.found, ∀ origin,
      u.origin? store p = some origin → v.origin? store q = some origin →
        (store.resource u.probe.location).identity = (store.resource v.probe.location).identity

namespace Course

/-- Where two visits read with one format and pick up what stands at one place of their files,
they pick it up under one name exactly when their resources have one identity. -/
theorem name_eq_iff (course : Course loader store env report)
    (hu : u ∈ loader.visits store env report) (hv : v ∈ loader.visits store env report)
    (hp : p ∈ u.found) (hq : q ∈ v.found) (hformat : u.probe.index = v.probe.index)
    (hindex : p.index = q.index) :
    p.name = q.name ↔ (store.resource u.probe.location).identity =
      (store.resource v.probe.location).identity := by
  constructor
  · intro hname
    obtain ⟨hlt, location, hidentity, hlocation⟩ := course.exists_name_eq hu hp
    obtain ⟨hlt', location', hidentity', hlocation'⟩ := course.exists_name_eq hv hq
    rw [hlocation, hlocation'] at hname
    obtain ⟨rfl, -⟩ := Format.documentName_inj hlt hlt' hname
    exact hidentity.symm.trans hidentity'
  · intro hidentity
    have hdocuments := documents_eq hu hv hp hq hformat hidentity
    have hdocument := Visit.getElem?_of_mem_found hp
    rw [hdocuments, hindex, Visit.getElem?_of_mem_found hq] at hdocument
    obtain hsame : q.document = p.document := Option.some_inj.mp hdocument
    exact congrArg (fun document : Document => document.source.name) hsame.symm

/-- Every source that a load over a file tree adds was read from a document of some file. -/
theorem exists_readFrom {name : String}
    (course : Course loader (.fileTree tree base classpath home) env report)
    (h : name ∈ report.added) :
    ∃ origin, loader.ReadFrom (.fileTree tree base classpath home) env report name origin := by
  obtain ⟨visit, hvisit, hname⟩ := course.mem_added_iff.mp h
  obtain ⟨pickup, hpickup, hname⟩ := List.mem_map.mp hname
  have hdocument := Visit.getElem?_of_mem_found hpickup
  rw [documents_of_mem_visits hvisit] at hdocument
  obtain ⟨format, hformat, -⟩ := Probe.lookup_of_documents hdocument
  obtain ⟨file, hfile⟩ := Store.exists_file (Probe.isThere_of_documents hdocument)
  exact ⟨⟨file, format, pickup.index⟩, visit, hvisit, pickup, hpickup, hname,
    by simp [Visit.origin?, hfile, hformat]⟩

/-- No document is read into two sources exactly when the visits that pick up one document come to
it by one path. -/
theorem readsOnce_iff (course : Course loader store env report) :
    loader.ReadsOnce store env report ↔ loader.ComesByOnePath store env report := by
  have hadded {visit : Visit} {pickup : Pickup} (hvisit : visit ∈ loader.visits store env report)
      (hpickup : pickup ∈ visit.found) : pickup.name ∈ report.added :=
    course.mem_added_iff.mpr ⟨visit, hvisit, List.mem_map_of_mem hpickup⟩
  have hname {u v : Visit} {p q : Pickup} {origin : DocumentOrigin}
      (hu : u ∈ loader.visits store env report) (hv : v ∈ loader.visits store env report)
      (hp : p ∈ u.found) (hq : q ∈ v.found) (huo : u.origin? store p = some origin)
      (hvo : v.origin? store q = some origin) : p.name = q.name ↔
        (store.resource u.probe.location).identity =
          (store.resource v.probe.location).identity := by
    obtain ⟨-, hformat, hindex⟩ := Visit.origin?_eq_some_iff.mp huo
    obtain ⟨-, hformat', hindex'⟩ := Visit.origin?_eq_some_iff.mp hvo
    exact course.name_eq_iff hu hv hp hq (hformat.trans hformat'.symm) (hindex.trans hindex'.symm)
  constructor
  · intro honce u hu v hv p hp q hq origin huo hvo
    exact (hname hu hv hp hq huo hvo).mp (honce _ (hadded hu hp) _ (hadded hv hq) origin
      ⟨u, hu, p, hp, rfl, huo⟩ ⟨v, hv, q, hq, rfl, hvo⟩)
  · rintro hpath a - b - origin ⟨u, hu, p, hp, rfl, huo⟩ ⟨v, hv, q, hq, rfl, hvo⟩
    exact (hname hu hv hp hq huo hvo).mpr (hpath u hu v hv p hp q hq origin huo hvo)

end Course

/-- Plain paths that lead to one file are one path. -/
theorem comesByOnePath_of_isPlain
    (hplain : ∀ visit ∈ loader.visits (.fileTree tree base classpath home) env report,
      visit.found ≠ [] → Path.IsPlain
        ((Store.fileTree tree base classpath home).resource visit.probe.location).identity) :
    loader.ComesByOnePath (.fileTree tree base classpath home) env report := by
  intro u hu v hv p hp q hq origin huo hvo
  obtain ⟨hfile, -, -⟩ := Visit.origin?_eq_some_iff.mp huo
  obtain ⟨hfile', -, -⟩ := Visit.origin?_eq_some_iff.mp hvo
  exact FileTree.path_eq_of_walk (hplain u hu (List.ne_nil_of_mem hp))
    (hplain v hv (List.ne_nil_of_mem hq)) (Store.walk_identity hfile) (Store.walk_identity hfile')

/-- Over a file tree, a load adds no source twice, and every source was read from a document of a
file. No document is read into two sources exactly when the visits that pick up one document come
to it by one path text; so it is when the paths by which something is found are plain. -/
theorem no_document_twice_iff
    (h : (loader.load (.fileTree tree base classpath home) env).result = .ok report) :
    let store := Store.fileTree tree base classpath home
    report.added.Nodup ∧
    (∀ name ∈ report.added, ∃ origin, loader.ReadFrom store env report name origin) ∧
    (loader.ReadsOnce store env report ↔ loader.ComesByOnePath store env report) ∧
    ((∀ visit ∈ loader.visits store env report, visit.found ≠ [] →
        Path.IsPlain (store.resource visit.probe.location).identity) →
      loader.ReadsOnce store env report) := by
  obtain ⟨course⟩ := exists_course h
  intro store
  exact ⟨course.nodup_added, fun name => course.exists_readFrom, course.readsOnce_iff,
    fun hplain => course.readsOnce_iff.mpr (comesByOnePath_of_isPlain hplain)⟩

/-! ### Two locations with one path -/

/-- The search path has one file on the class path and in the file system. The only format gives
two documents. -/
def twoSpellingsLoader : Loader where
  search := { locations := some "file:/b/a.conf,classpath:/a.conf" }
  registry := ⟨[{ name := "twin", extensions := ["conf"],
                  body := .fixed [[⟨"a", "1", .nowhere⟩], [⟨"a", "2", .nowhere⟩]] }]⟩

def twoSpellingsStore : Store :=
  .fileTree { entries := [(["b", "a.conf"], .file (some ""))] } "/b" ["/b"] none

def twoSpellingsReport : Report where
  locations := ["classpath:/a.conf", "file:/b/a.conf"]
  names := ["application"]
  processed := [.unscoped, .fallback "default"]
  added := ["applicationConfig: [classpath:/a.conf] (document #1)",
    "applicationConfig: [classpath:/a.conf] (document #0)"]
  active := []

/-- Both locations lead to the file, and each of its documents is read once. -/
theorem plain_paths_read_once :
    (twoSpellingsLoader.load twoSpellingsStore {}).result = .ok twoSpellingsReport ∧
    (∀ location ∈ twoSpellingsReport.locations,
      ∃ visit ∈ twoSpellingsLoader.visits twoSpellingsStore {} twoSpellingsReport,
        visit.probe.location = location ∧ visit.found.length = 2) ∧
    twoSpellingsLoader.ReadsOnce twoSpellingsStore {} twoSpellingsReport := by
  obtain ⟨hload, hfound, hplain⟩ :
      (twoSpellingsLoader.load twoSpellingsStore {}).result = .ok twoSpellingsReport ∧
      (∀ location ∈ twoSpellingsReport.locations,
        ∃ visit ∈ twoSpellingsLoader.visits twoSpellingsStore {} twoSpellingsReport,
          visit.probe.location = location ∧ visit.found.length = 2) ∧
      ∀ visit ∈ twoSpellingsLoader.visits twoSpellingsStore {} twoSpellingsReport,
        visit.found ≠ [] →
          Path.IsPlain (twoSpellingsStore.resource visit.probe.location).identity := by
    decide +kernel
  exact ⟨hload, hfound, (no_document_twice_iff hload).2.2.2 hplain⟩

/-! ### Two paths to one file -/

/-- The search path has the same directory twice, once with a dot before it. -/
def dottedLoader : Loader where
  search := { locations := some "file:./config/,file:config/" }
  registry := ⟨[.properties]⟩

def dottedStore : Store :=
  .fileTree { entries := [(["b", "config", "application.properties"], .file (some "a=1\n"))] }
    "/b" [] none

def dottedReport : Report where
  locations := ["file:config/", "file:./config/"]
  names := ["application"]
  processed := [.unscoped, .fallback "default"]
  added := ["applicationConfig: [file:config/application.properties]",
    "applicationConfig: [file:./config/application.properties]"]
  active := []

theorem dotted_location_reads_twice :
    (dottedLoader.load dottedStore {}).result = .ok dottedReport ∧
    ¬ dottedLoader.ReadsOnce dottedStore {} dottedReport := by
  let origin : DocumentOrigin :=
    { file := ["b", "config", "application.properties"], format := 0, index := 0 }
  obtain ⟨hload, hread⟩ :
      (dottedLoader.load dottedStore {}).result = .ok dottedReport ∧
      ∀ name ∈ dottedReport.added,
        ∃ visit ∈ dottedLoader.visits dottedStore {} dottedReport, ∃ pickup ∈ visit.found,
          pickup.name = name ∧ visit.origin? dottedStore pickup = some origin := by
    decide +kernel
  refine ⟨hload, fun honce => ?_⟩
  have hfirst : "applicationConfig: [file:config/application.properties]" ∈ dottedReport.added := by
    simp [dottedReport]
  have hsecond : "applicationConfig: [file:./config/application.properties]" ∈
      dottedReport.added := by
    simp [dottedReport]
  have hsame := honce _ hfirst _ hsecond origin (hread _ hfirst) (hread _ hsecond)
  revert hsame
  decide

end Loader

end LayeredConfig
