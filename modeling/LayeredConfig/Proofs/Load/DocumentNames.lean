import LayeredConfig.Format.BuiltIn
import LayeredConfig.Proofs.Load.Naming

/-!
# Source names identify documents

A name ends with the closing bracket of the location where the resource has one document, and with
the closing parenthesis of the index where it has several. What stands before is the location, which
may hold any characters, brackets and indexes included: the last number sign is that of the index.
So a name can be taken apart again. During a load, the documents of a resource are kept under the
names of the location from which they were read first, and these names tell them apart as well.

## Main results

* `Loader.names_identify_documents`: documents of one name have one location and one index.
-/

namespace LayeredConfig

namespace Registry

/-- The built-in formats have plain extensions, so a file is read with one of them. -/
theorem consistent_of_builtIn {registry : Registry}
    (h : ∀ format ∈ registry.formats, format ∈ builtIn.formats) : registry.Consistent := by
  have hplain : ∀ format ∈ builtIn.formats, ∀ extension ∈ format.extensions,
      extension.toList.map Char.toLower = extension.toList ∧ '.' ∉ extension.toList := by decide
  exact consistent_of_plain fun format hformat => hplain format (h format hformat)

end Registry

namespace Loader

/-- The names of documents identify them. Whatever resources are found at two locations, and with
whatever formats they are read, two of their documents have one name iff their locations and their
indexes are the same, and either both are the only ones of their resources or none is. In a load
with built-in formats, what is found under one name is one document of one file. -/
theorem names_identify_documents :
    (∀ (format format' : Format) (a b : String) (resource resource' : Resource)
        (resolve resolve' : String → Except Failure String) (documents documents' : List Document),
      Document.load format (Run.sourceName a) resource resolve = .ok documents →
      Document.load format' (Run.sourceName b) resource' resolve' = .ok documents' →
      ∀ (i j : Nat) (document other : Document),
        documents[i]? = some document → documents'[j]? = some other →
        (document.source.name = other.source.name ↔
          a = b ∧ i = j ∧ (documents.length = 1 ↔ documents'.length = 1))) ∧
    ∀ (loader : Loader) (store : Store) (env : Environment) (report : Report),
      (∀ format ∈ loader.registry.formats, format ∈ Registry.builtIn.formats) →
      (loader.load store env).result = .ok report →
      NamesApart (loader.visits store env report) := by
  constructor
  · intro format format' a b resource resource' resolve resolve' documents documents' hload hload'
      i j document other hdocument hother
    obtain ⟨hi, -⟩ := List.getElem?_eq_some_iff.mp hdocument
    obtain ⟨hj, -⟩ := List.getElem?_eq_some_iff.mp hother
    rw [Document.name_of_load hload hdocument, Document.name_of_load hload' hother]
    exact Format.documentName_eq_iff hi hj
  · intro loader store env report hformats hload
    obtain ⟨course⟩ := exists_course hload
    exact course.namesApart (Registry.consistent_of_builtIn hformats)

/-! ### A location that looks like a document -/

/-- A resource with two documents. -/
def pairResource : Resource :=
  .ofText "file:/x.yml" (some "a: 1\n---\na: 2\n")

/-- A resource with one document, at a location that ends like the name of a document. -/
def suffixedResource : Resource :=
  .ofText "file:/x.yml] (document #1" (some "a=3\n")

def pairDocuments : List Document :=
  [{ source := { name := "applicationConfig: [file:/x.yml] (document #0)",
                 entries := [("a", ⟨"1", some { resource := "file:/x.yml",
                                                document := some 0 }⟩)] } },
    { source := { name := "applicationConfig: [file:/x.yml] (document #1)",
                  entries := [("a", ⟨"2", some { resource := "file:/x.yml",
                                                 document := some 1 }⟩)] } }]

def suffixedDocuments : List Document :=
  [{ source := { name := "applicationConfig: [file:/x.yml] (document #1]",
                 entries := [("a", ⟨"3", some { resource := "file:/x.yml] (document #1",
                                                line := some 1, column := some 1 }⟩)] } }]

/-- The search path has one file in two spellings. -/
def twiceSpelledLoader : Loader where
  search := { locations := some "file:/b/a.properties,file:///b/a.properties" }
  registry := .builtIn

def twiceSpelledStore : Store :=
  .fileTree { entries := [(["b", "a.properties"], .file (some "k=1\n"))] } "/b" [] none

def twiceSpelledReport : Report where
  locations := ["file:///b/a.properties", "file:/b/a.properties"]
  names := ["application"]
  processed := [.unscoped, .fallback "default"]
  added := ["applicationConfig: [file:///b/a.properties]"]
  active := []

theorem names_identify_documents_alike :
    Document.load .yaml (Run.sourceName pairResource.location) pairResource .ok =
        .ok pairDocuments ∧
      Document.load .properties (Run.sourceName suffixedResource.location) suffixedResource .ok =
        .ok suffixedDocuments ∧
      (∀ document ∈ pairDocuments[1]?, ∀ other ∈ suffixedDocuments[0]?,
        document.source.name ≠ other.source.name) ∧
      (twiceSpelledLoader.load twiceSpelledStore {}).result = .ok twiceSpelledReport ∧
      NamesApart (twiceSpelledLoader.visits twiceSpelledStore {} twiceSpelledReport) := by
  have hpair : Document.load .yaml (Run.sourceName pairResource.location) pairResource .ok =
      .ok pairDocuments := by decide +kernel
  have hsuffixed : Document.load .properties (Run.sourceName suffixedResource.location)
      suffixedResource .ok = .ok suffixedDocuments := by decide +kernel
  have hload : (twiceSpelledLoader.load twiceSpelledStore {}).result = .ok twiceSpelledReport := by
    decide +kernel
  obtain ⟨hnames, hloads⟩ := names_identify_documents
  refine ⟨hpair, hsuffixed, ?_, hload, hloads _ _ _ _ (fun _ h => h) hload⟩
  intro document hdocument other hother hname
  have hsame := (hnames _ _ _ _ _ _ _ _ _ _ hpair hsuffixed _ _ _ _ hdocument hother).mp hname
  exact absurd hsame.1 (by decide)

end Loader

end LayeredConfig
