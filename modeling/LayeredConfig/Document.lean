import LayeredConfig.Environment
import LayeredConfig.Format

/-!
# Documents

A document is one unit of a configuration file. Reserved keys of its own say for which
profiles it is meant and which ones it activates or includes.

During a load the same resource is asked for again and again. A memo keeps the documents of
each format and resource after the first reading.

## Main definitions

* `Document`, `Document.ofSource`.
* `Pass`, `Document.applies`: the document takes part when a profile is processed.
* `Document.load`: the documents of a resource.
* `DocumentMemo`, `DocumentMemo.get`.
-/

namespace LayeredConfig

/-- A source with what its reserved keys say. -/
structure Document where
  source : Source
  declared : List String := []
  activates : List Profile := []
  includes : List Profile := []
  deriving DecidableEq, Repr

/-- How documents are chosen. -/
inductive Pass
  /-- The documents that are meant for the profile. -/
  | positive
  /-- The documents of unscoped files that are meant for some profiles, once all profiles
  are processed. -/
  | negative
  deriving DecidableEq, Repr

namespace Document

/-- Reads the reserved keys of a source. -/
def ofSource (source : Source) (resolve : String → Except Failure String) :
    Except Failure Document := do
  let declared ← source.list? resolve Key.declared
  let activates ← source.list? resolve Key.active
  let includes ← source.list? resolve Key.includes
  return {
    source
    declared := declared.getD []
    activates := Profile.setOfNames (activates.getD [])
    includes := Profile.setOfNames (includes.getD []) }

/-- The document is meant for certain profiles only. -/
def isSpecific (document : Document) : Bool :=
  !document.declared.isEmpty

/-- The document takes part for a profile. In the positive pass, the unscoped profile takes
the documents that declare nothing, and a named one those that declare its name and are
accepted. In the negative pass, the unscoped profile takes the accepted documents among those
that declare something. -/
def applies (document : Document) (pass : Pass) (profile : Profile) (env : Environment) :
    Except Failure Bool :=
  match pass, profile.name? with
  | .positive, none => .ok document.declared.isEmpty
  | .positive, some name =>
    if document.declared.contains name then env.accepts document.declared else .ok false
  | .negative, none =>
    if document.isSpecific then env.accepts document.declared else .ok false
  | .negative, some _ => .ok false

end Document

/-! ### Documents that are read once -/

/-- The documents by the index of the format and the identity of the resource. -/
structure DocumentMemo where
  entries : List ((Nat × String) × List Document) := []
  deriving DecidableEq, Repr

/-- Reads the documents of a resource, with what their reserved keys say. -/
def Document.load (format : Format) (name : String) (resource : Resource)
    (resolve : String → Except Failure String) : Except Failure (List Document) := do
  let sources ← format.load name resource
  sources.mapM fun source => Document.ofSource source resolve

namespace DocumentMemo

/-- The documents of a resource, and the memo that keeps them. -/
def get (memo : DocumentMemo) (index : Nat) (format : Format) (name : String)
    (resource : Resource) (resolve : String → Except Failure String) :
    Except Failure (List Document × DocumentMemo) :=
  match memo.entries.lookup (index, resource.identity) with
  | some documents => .ok (documents, memo)
  | none => do
    let documents ← Document.load format name resource resolve
    return (documents, ⟨((index, resource.identity), documents) :: memo.entries⟩)

end DocumentMemo

end LayeredConfig
