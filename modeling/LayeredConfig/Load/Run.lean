import LayeredConfig.Document
import LayeredConfig.Layers
import LayeredConfig.Load.Probe
import LayeredConfig.Profile.Queue

/-!
# The state of a load

A run holds the environment, the queue of profiles, the documents read so far, the documents
that were picked up and the events. Every step gives back the run as far as it got, together
with the failure that stopped it, if any.

## Main definitions

* `Pickup`: a document that takes part, with the profile it was found for.
* `Run`, `Run.visit`, `Run.visitAll`, `Run.process`.
-/

namespace LayeredConfig

/-- A document that takes part. -/
structure Pickup where
  /-- The profile for which it was found. -/
  profile : Profile
  placement : Placement
  location : String
  /-- Its index among the documents of its file. -/
  index : Nat
  document : Document
  deriving DecidableEq, Repr

/-- What a load has got so far. -/
structure Run where
  env : Environment
  queue : ProfileQueue
  memo : DocumentMemo := {}
  pickups : Array Pickup := #[]
  events : Array Event := #[]

/-- A run with the failure that stopped it. -/
abbrev Progress : Type := Run × Option Failure

/-- What a load works with. -/
structure LoadContext where
  plan : Plan
  store : Store

/-- How the documents of a pass join the layers. -/
def Pass.placement : Pass → Placement
  | positive => .append
  | negative => .prependIfAbsent

namespace Run

/-- The name of the source read from a location. -/
def sourceName (location : String) : String :=
  "applicationConfig: [" ++ location ++ "]"

/-- Reports an event. -/
def record (run : Run) (event : Event) : Run :=
  { run with events := run.events.push event }

/-- Activates and includes the profiles that a document asks for. -/
def follow (run : Run) (document : Document) : Run :=
  let (queue, activations) := run.queue.activate document.activates
  let (queue, inclusions) := queue.includeFirst document.includes
  { run with queue, events := run.events ++ activations ++ inclusions }

/-- The documents that take part, with their indexes. The profiles that they ask for are
queued on the way. -/
def choose (run : Run) (pass : Pass) (selector : Profile) :
    List (Document × Nat) → Run × Except Failure (List (Document × Nat))
  | [] => (run, .ok [])
  | (document, index) :: documents =>
    match document.applies pass selector run.env with
    | .error failure => (run, .error failure)
    | .ok false => choose run pass selector documents
    | .ok true =>
      match choose (run.follow document) pass selector documents with
      | (run, .ok chosen) => (run, .ok ((document, index) :: chosen))
      | (run, .error failure) => (run, .error failure)

/-- Picks documents up, the last one first: the last document of a file outranks the others. -/
def pickUp (run : Run) (pass : Pass) (profile : Profile) (location : String)
    (chosen : List (Document × Nat)) : Run :=
  let found := chosen.reverse.map fun (document, index) =>
    { profile, placement := pass.placement, location, index, document : Pickup }
  { run with pickups := run.pickups ++ found }

/-- Chooses among the documents of a file and picks up those that take part. -/
def adopt (run : Run) (pass : Pass) (profile : Profile) (probe : Probe)
    (documents : List Document) : Progress :=
  match run.choose pass probe.selector documents.zipIdx with
  | (run, .error failure) => (run, some failure)
  | (run, .ok []) => (run, none)
  | (run, .ok chosen) =>
    ((run.pickUp pass profile probe.location chosen).record
      (.probed .loaded probe.location profile.name?), none)

/-- Looks at the resource of a probe and reads it with a format. -/
def examine (run : Run) (store : Store) (format : Format) (index : Nat) (pass : Pass)
    (profile : Profile) (probe : Probe) : Progress :=
  let resource := store.resource probe.location
  let skip (run : Run) (finding : Finding) : Progress :=
    (run.record (.probed finding probe.location profile.name?), none)
  if !resource.isThere then skip run .missing
  else if resource.extension?.isNone then skip run .withoutExtension
  else
    match run.memo.get index format (sourceName probe.location) resource run.env.resolve with
    | .error failure => (run, some failure)
    | .ok (documents, memo) =>
      let run := { run with memo }
      if documents.isEmpty then skip run .empty
      else run.adopt pass profile probe documents

/-- Carries out one probe for a profile. -/
def visit (run : Run) (ctx : LoadContext) (pass : Pass) (profile : Profile) (probe : Probe) :
    Progress :=
  match probe.index with
  | none => (run, some (.unknownExtension probe.location))
  | some index =>
    match ctx.plan.registry.get? index with
    | none => (run, some (.unknownExtension probe.location))
    | some format =>
      match run.examine ctx.store format index pass profile probe with
      | (run, none) => (run, none)
      | (run, some failure) => (run, some (.loadFailed probe.location failure))

/-- Carries out probes one after the other, up to the first that fails. -/
def visitAll (run : Run) (ctx : LoadContext) (pass : Pass) (profile : Profile) :
    List Probe → Progress
  | [] => (run, none)
  | probe :: probes =>
    match run.visit ctx pass profile probe with
    | (run, none) => visitAll run ctx pass profile probes
    | (run, some failure) => (run, some failure)

/-- Goes through the search path for a profile. -/
def sweep (run : Run) (ctx : LoadContext) (pass : Pass) (profile : Profile) : Progress :=
  run.visitAll ctx pass profile (ctx.plan.probes run.queue.processed profile)

/-- Makes a profile that was asked for active in the environment, unless it is. -/
def announce (env : Environment) (profile : Profile) : Except Failure Environment :=
  match profile with
  | .requested name => do
    let active ← env.active
    if active.contains name then return env
    env.addActive name
  | _ => .ok env

/-- Makes a profile active and looks for its documents. -/
def process (run : Run) (ctx : LoadContext) (profile : Profile) : Progress :=
  match announce run.env profile with
  | .error failure => (run, some failure)
  | .ok env => { run with env }.sweep ctx .positive profile

/-- Counts a profile as done. -/
def markProcessed (run : Run) (profile : Profile) : Run :=
  { run with queue := run.queue.markProcessed profile }

end Run

end LayeredConfig
