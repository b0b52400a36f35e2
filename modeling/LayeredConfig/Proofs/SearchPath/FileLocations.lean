import LayeredConfig.Proofs.Placeholder.Pieces
import LayeredConfig.Proofs.SearchPath.ProbeOrder
import LayeredConfig.Proofs.Store.FilePath

/-!
# Where configured file locations lead

The keys of a chain name locations as they are written, and a load probes cleaned ones. A `file:`
location or a plain path is cleaned to a location in the file system, which leads to the path that
was meant unless the marks at its start have changed their meaning on the way. The written location
is compared with `file:` before a plain path, and two slashes at the start of a plain path would
then be those of a URL. They are not: such a path starts at the root.

## Main definitions

* `SearchPath.isFileUrl`, `SearchPath.fileRest`, `SearchPath.asFileUrl`: the parts of a location as
  it is written.
* `SearchPath.IsFileLocation`: a `file:` location or a plain path.

## Main results

* `SearchPath.IsFileLocation.asProbed_eq`: the location that is probed.
* `SearchPath.lexical_path?_iff`: when it leads to the same path.
-/

namespace LayeredConfig

open LayeredConfig.Path

namespace SearchPath

variable {env : Environment} {key value location : String} {mentioned probed : List String}

/-! ### Locations as they are written -/

/-- The location says that it is in the file system. -/
def isFileUrl (location : String) : Bool :=
  (Text.afterStart? filePrefix.toList location.toList).isSome

/-- What follows `file:` in a location, or the whole of a plain path. -/
def fileRest (location : String) : List Char :=
  (Text.afterStart? filePrefix.toList location.toList).getD location.toList

/-- The location as it is written, with `file:` before a plain path. -/
def asFileUrl (location : String) : String :=
  if isFileUrl location then location else filePrefix ++ location

/-- A `file:` location or a plain path, without references and with slashes only. -/
structure IsFileLocation (location : String) : Prop where
  backslash_notMem : '\\' ∉ location.toList
  dollar_notMem : '$' ∉ location.toList
  colon_notMem : ':' ∉ fileRest location

theorem fileRest_cases (location : String) :
    isFileUrl location = true ∧ location.toList = filePrefix.toList ++ fileRest location ∨
      isFileUrl location = false ∧ fileRest location = location.toList := by
  unfold isFileUrl fileRest
  cases hafter : Text.afterStart? filePrefix.toList location.toList with
  | none => exact .inr ⟨rfl, rfl⟩
  | some rest => exact .inl ⟨rfl, Text.afterStart?_eq_some_iff.mp hafter⟩

theorem isFileUrl_append (rest : List Char) :
    isFileUrl (filePrefix ++ String.ofList rest) = true := by
  rw [isFileUrl, Store.afterStart?_file, Option.isSome_some]

theorem asFileUrl_eq (location : String) :
    asFileUrl location = filePrefix ++ String.ofList (fileRest location) := by
  unfold asFileUrl
  rcases fileRest_cases location with ⟨hurl, hrest⟩ | ⟨hplain, hrest⟩
  · rw [if_pos hurl, ← String.toList_inj, hrest, String.toList_append, String.toList_ofList]
  · rw [hplain, hrest, String.ofList_toList]
    rfl

/-- What a file location is cleaned to. -/
theorem IsFileLocation.toList_clean (h : IsFileLocation location) :
    (clean location).toList = (if isFileUrl location then filePrefix.toList else []) ++
      cleanRest (isFileUrl location) (fileRest location) := by
  rw [Path.toList_clean, schemeOf, restOf, withSlashes_eq_self h.backslash_notMem]
  rcases fileRest_cases location with ⟨hurl, hrest⟩ | ⟨hplain, hrest⟩
  · have hsplit : splitScheme location.toList = (filePrefix.toList, fileRest location) := by
      have hcolon : ':' ∉ "file".toList := by decide
      have hslash : '/' ∉ "file".toList := by decide
      rw [hrest]
      exact splitScheme_append hcolon hslash
    rw [hsplit, hurl]
    rfl
  · have hcolon := h.colon_notMem
    rw [hrest] at hcolon ⊢
    rw [splitScheme_of_notMem hcolon, hplain]
    rfl

theorem isUrl_eq_false (h : ':' ∉ location.toList) : isUrl location = false := by
  have hpart (part : List Char) (hpart : ':' ∈ part) : ¬ part <:+: location.toList :=
    fun hoccurs => h (hoccurs.subset hpart)
  refine Bool.eq_false_iff.mpr fun hurl => ?_
  rw [isUrl, Bool.or_eq_true, Bool.or_eq_true, List.isPrefixOf_iff_prefix,
    List.isPrefixOf_iff_prefix, Text.contains_iff] at hurl
  rcases hurl with (hurl | hurl) | hurl
  · exact hpart _ (by decide) hurl.isInfix
  · exact hpart _ (by decide) hurl.isInfix
  · exact hpart _ (by decide) hurl

/-- A file location is probed in the file system. -/
theorem IsFileLocation.asProbed_eq (h : IsFileLocation location) :
    asProbed location =
      .ok (filePrefix ++ String.ofList (cleanRest (isFileUrl location) (fileRest location))) := by
  have hclean := h.toList_clean
  rw [asProbed, if_neg (by simpa using h.dollar_notMem)]
  dsimp only
  rcases fileRest_cases location with ⟨hurl, -⟩ | ⟨hplain, -⟩
  · rw [hurl, if_pos rfl] at hclean
    have hwildcard : wildcardPrefix.toList.isPrefixOf (clean location).toList = false := by
      rw [hclean]
      rfl
    have hfile : isUrl (clean location) = true := by
      rw [isUrl, hclean]
      rfl
    have hcleaned : clean location =
        filePrefix ++ String.ofList (cleanRest true (fileRest location)) := by
      rw [← String.toList_inj, hclean, String.toList_append, String.toList_ofList]
    rw [hwildcard, if_neg Bool.false_ne_true, if_pos hfile, hurl, hcleaned]
  · rw [hplain, if_neg Bool.false_ne_true, List.nil_append] at hclean
    have hcolon : ':' ∉ (clean location).toList := by
      rw [hclean]
      intro hmem
      rcases mem_of_mem_cleanRest hmem with hmem | hmem | hmem
      · cases hmem
      · cases hmem
      · exact h.colon_notMem hmem
    have hwildcard : ¬ wildcardPrefix.toList.isPrefixOf (clean location).toList = true := by
      rw [List.isPrefixOf_iff_prefix]
      exact fun hstart => hcolon (hstart.subset (by decide))
    rw [if_neg hwildcard, if_neg (by simp [isUrl_eq_false hcolon]), hplain, ← hclean,
      String.ofList_toList]

theorem probedForm_mem_of_namedBy (hvalue : env.get? key = .ok (some value))
    (h : namedBy env key = .ok probed) (hmem : location ∈ Text.splitList value) :
    probedForm location ∈ probed := by
  obtain ⟨found, hfound, h⟩ := Failure.bind_eq_ok_iff.mp h
  cases hvalue.symm.trans hfound
  obtain ⟨mentioned, hmentioned, h⟩ := Failure.bind_eq_ok_iff.mp h
  cases (items_get? hvalue).symm.trans hmentioned
  obtain ⟨cleaned, hcleaned, h⟩ := Failure.bind_eq_ok_iff.mp h
  cases h
  rw [List.mem_eraseDups, eq_map_probedForm hcleaned]
  exact List.mem_map_of_mem (by simpa using hmem)

/-- A file location that a key names is probed as a location that leads to the same path, up to
lexical normalisation and whatever the base and the home directory are, iff its markers mean the
same once it is cleaned. A plain path that starts at the root leads to itself. -/
theorem lexical_path?_iff (hvalue : env.get? key = .ok (some value))
    (hprobed : namedBy env key = .ok probed) (hmem : location ∈ Text.splitList value)
    (h : IsFileLocation location) :
    ∃ cleaned ∈ probed, asProbed location = .ok cleaned ∧ isFileUrl cleaned = true ∧
      (isFileUrl location = false → isAbsolute location = true →
        ∀ tree base classpath home,
          (Store.path? tree base classpath home cleaned).map lexical = some (lexical location)) ∧
      ((∀ tree base classpath home,
        (Store.path? tree base classpath home cleaned).map lexical =
          (Store.path? tree base classpath home (asFileUrl location)).map lexical) ↔
        KeepsMarkers (isFileUrl location) (fileRest location)) := by
  refine ⟨_, ?_, h.asProbed_eq, isFileUrl_append _,
    fun hplain hrooted tree base classpath home => ?_, ?_⟩
  · rw [eq_probedForm h.asProbed_eq]
    exact probedForm_mem_of_namedBy hvalue hprobed hmem
  · have hrest : fileRest location = location.toList := by
      rcases fileRest_cases location with ⟨hurl, -⟩ | ⟨-, hrest⟩
      · simp [hplain] at hurl
      · exact hrest
    have hhead : location.toList.head? = some '/' := of_decide_eq_true hrooted
    rw [hplain, hrest, Store.path?_file, Option.map_some,
      Store.lexical_filePath_of_rooted base home hhead, String.ofList_toList]
  · simp only [asFileUrl_eq, Store.path?_file, Option.map_some, Option.some_inj]
    rw [← Store.filePath_cleanRest_iff]
    exact ⟨fun hsame base home => hsame {} base [] home, fun hsame _ base _ home => hsame base home⟩

/-- A chain whose key mentions locations below the home and the base directory and from the root. -/
def dottedEnvironment : Environment where
  chain := ⟨[.ofPairs "arguments"
    [("config.location", "file:~/conf/../app/, ./config/, file:///etc/./app.yml")]]⟩

theorem lexical_path?_dotted :
    IsFileLocation "file:~/conf/../app/" ∧
      KeepsMarkers (isFileUrl "file:~/conf/../app/") (fileRest "file:~/conf/../app/") ∧
      ∃ cleaned ∈ ["file:///etc/app.yml", "file:config/", "file:~/app/"],
        asProbed "file:~/conf/../app/" = .ok cleaned ∧ isFileUrl cleaned = true ∧
        (isFileUrl "file:~/conf/../app/" = false → isAbsolute "file:~/conf/../app/" = true →
          ∀ tree base classpath home,
            (Store.path? tree base classpath home cleaned).map lexical =
              some (lexical "file:~/conf/../app/")) ∧
        ((∀ tree base classpath home,
          (Store.path? tree base classpath home cleaned).map lexical =
            (Store.path? tree base classpath home (asFileUrl "file:~/conf/../app/")).map lexical) ↔
          KeepsMarkers (isFileUrl "file:~/conf/../app/") (fileRest "file:~/conf/../app/")) := by
  have hvalue : dottedEnvironment.get? Key.locations =
      .ok (some "file:~/conf/../app/, ./config/, file:///etc/./app.yml") := by
    decide +kernel
  have hprobed : namedBy dottedEnvironment Key.locations =
      .ok ["file:///etc/app.yml", "file:config/", "file:~/app/"] := by
    decide +kernel
  have hlocation : IsFileLocation "file:~/conf/../app/" := ⟨by decide, by decide, by decide⟩
  exact ⟨hlocation, by decide, lexical_path?_iff hvalue hprobed (by decide +kernel) hlocation⟩

/-- A chain whose key mentions a path that begins with two slashes and one in a directory that is
named by a tilde. -/
def strayEnvironment : Environment where
  chain := ⟨[.ofPairs "arguments" [("config.location", "//opt/app.yml, ./~/app.yml")]]⟩

/-- The first path is not taken for what follows `file:`, and the second is looked for in the home
directory. -/
theorem stray_locations_redirected :
    namedBy strayEnvironment Key.locations = .ok ["file:~/app.yml", "file:/opt/app.yml"] ∧
      (IsFileLocation "//opt/app.yml" ∧
        Store.path? {} "/srv" [] (some "/home/me") "file:/opt/app.yml" = some "/opt/app.yml" ∧
        Store.path? {} "/srv" [] (some "/home/me") (asFileUrl "//opt/app.yml") =
          some "/srv/opt/app.yml" ∧
        lexical "/opt/app.yml" ≠ lexical "/srv/opt/app.yml") ∧
      IsFileLocation "./~/app.yml" ∧
        Store.path? {} "/srv" [] (some "/home/me") "file:~/app.yml" = some "/home/me/app.yml" ∧
        Store.path? {} "/srv" [] (some "/home/me") (asFileUrl "./~/app.yml") =
          some "/srv/./~/app.yml" ∧
        lexical "/home/me/app.yml" ≠ lexical "/srv/./~/app.yml" := by
  refine ⟨by decide +kernel, ⟨⟨by decide, by decide, by decide⟩, by decide +kernel⟩,
    ⟨by decide, by decide, by decide⟩, by decide +kernel⟩

end SearchPath

end LayeredConfig
