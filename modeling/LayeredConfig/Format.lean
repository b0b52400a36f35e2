import LayeredConfig.Store

/-!
# Document formats

A format reads the text of a resource as documents, each a list of keys and texts with the
place where the value stands. Reading knows nothing of the resource but its text; naming the
documents and giving their values an origin come afterwards.

A format stands for a loader that is meant for the files with one of its extensions and for no
others, that names its sources after the name it is given, with the index of the document where
there are several, and whose documents depend on nothing but the text of the resource. Loaders that
choose their files in another way, name their sources otherwise, or read anything else are left
out.

The order in which formats are registered decides which of them handles an extension that several
are meant for.

## Main definitions

* `Entry`, `Place`: a key with its text and where that stands.
* `Format`, `Format.load`: the sources of a resource.
* `Format.canRead`: the format is meant for a location.
* `Registry`, `Registry.forLocation?`, `Registry.handlers`.
-/

namespace LayeredConfig

/-- Where a value stands in a resource. -/
inductive Place
  | nowhere
  | position (line column : Nat)
  /-- In the document itself, of which only the index is known. -/
  | document
  deriving DecidableEq, Repr

/-- A key with its text. -/
structure Entry where
  key : String
  text : String
  place : Place
  deriving DecidableEq, Repr

namespace Place

/-- The origin of a value in the document with the given index of a resource. -/
def origin? (location : String) (index : Nat) : Place → Option Origin
  | nowhere => none
  | position line column =>
    some { resource := location, line := some line, column := some column }
  | document => some { resource := location, document := some index }

end Place

/-- The content of a format's reader: the documents as a function of the text alone. No location,
no name and no earlier reading has a part in them. -/
inductive Body
  /-- The documents are read from the text, which may not be of the format. -/
  | parsed (read : String → Option (List (List Entry)))
  /-- The documents are the same whatever the resource holds. -/
  | fixed (documents : List (List Entry))

/-- A way to read documents. Which files it is meant for follows from the extensions, and the names
of the sources follow from the name that is given: neither is up to the format. -/
structure Format where
  name : String
  /-- The extensions of the files that the format is meant for, without the dot. -/
  extensions : List String
  body : Body

namespace Format

/-- The name of one of `total` documents of a resource. -/
def documentName (name : String) (index total : Nat) : String :=
  if total = 1 then name else name ++ " (document #" ++ toString index ++ ")"

/-- The source of a document. -/
def source (name location : String) (index : Nat) (entries : List Entry) : Source where
  name := name
  entries := Pairs.ofList <| entries.map fun entry =>
    (entry.key, { value := entry.text, origin := entry.place.origin? location index })

/-- The sources of the documents of a resource. -/
def sources (name location : String) (documents : List (List Entry)) : List Source :=
  documents.mapIdx fun index entries =>
    source (documentName name index documents.length) location index entries

/-- The documents of a resource. -/
def documents (format : Format) (resource : Resource) : Except Failure (List (List Entry)) :=
  match format.body with
  | .fixed documents => .ok documents
  | .parsed read => do
    let text ← resource.text
    match read text with
    | some documents => return documents
    | none => throw (.malformed resource.location)

/-- The sources of a resource, named after `name`. -/
def load (format : Format) (name : String) (resource : Resource) :
    Except Failure (List Source) := do
  let documents ← format.documents resource
  return sources name resource.location documents

/-- The name of a file ends with a dot and an extension, whatever the case of its letters. -/
def hasExtension (location extension : String) : Bool :=
  ('.' :: extension.toList).isSuffixOf (location.toList.map Char.toLower)

/-- The format is meant for the file at a location. -/
def canRead (format : Format) (location : String) : Bool :=
  format.extensions.any (hasExtension location)

end Format

/-! ### The formats that are known -/

/-- Formats in order of registration. -/
structure Registry where
  formats : List Format

/-- An extension with the index of a format that is meant for it. -/
structure Handler where
  index : Nat
  extension : String
  deriving DecidableEq, Repr

namespace Registry

/-- The format with the given index. -/
def get? (registry : Registry) (index : Nat) : Option Format :=
  registry.formats[index]?

/-- The index of the first format that is meant for the file at a location. -/
def forLocation? (registry : Registry) (location : String) : Option Nat :=
  registry.formats.findIdx? fun format => format.canRead location

/-- Every extension of every format, in order of registration. -/
def declarations (registry : Registry) : List Handler :=
  (registry.formats.mapIdx fun index format =>
    format.extensions.map fun extension => { index, extension : Handler }).flatten

/-- The extensions in order of registration, each once, with the format that handles it. -/
def handlers (registry : Registry) : List Handler :=
  registry.declarations.eraseDupsBy fun a b => a.extension == b.extension

/-- The names of the formats in brackets. -/
def text (registry : Registry) : String :=
  "[" ++ ", ".intercalate (registry.formats.map fun format => Text.quoted format.name) ++ "]"

end Registry

end LayeredConfig
