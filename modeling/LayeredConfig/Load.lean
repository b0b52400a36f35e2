import LayeredConfig.Load.Drain

/-!
# Loading configuration into an environment

A load resolves the search path, processes all profiles, picks up what the unscoped files hold
for the profiles that became active, and puts the documents it found into the chain. The
profiles that the default properties activate or include are hidden from it and come back at
its end.

## Main definitions

* `Loader`, `Loader.searched`.
* `Report`, `Outcome`, `Loader.load`.
-/

namespace LayeredConfig

/-- Where to search and with which formats to read. -/
structure Loader where
  search : SearchPath := {}
  registry : Registry

/-- What a load looked at and what it changed. -/
structure Report where
  /-- The locations in probe order. -/
  locations : List String
  names : List String
  /-- The profiles in the order in which they were processed. -/
  processed : List Profile
  /-- The names of the sources that were put into the chain, in order. -/
  added : List String
  /-- The profiles that are active from now on. -/
  active : List String
  deriving DecidableEq, Repr

/-- The result of a load, the environment as it is afterwards, and the events. -/
structure Outcome where
  result : Except Failure Report
  env : Environment
  events : Array Event

/-- The layers that result from documents in the order in which they were picked up. -/
def Layers.ofPickups (pickups : Array Pickup) : Layers :=
  pickups.foldl (fun layers pickup =>
    layers.accept pickup.profile pickup.document.source pickup.placement) {}

namespace Run

/-- Picks up what unscoped files hold for some profiles, unless a failure came before. -/
def sweepRest (ctx : LoadContext) : Progress → Progress
  | (run, some failure) => (run, some failure)
  | (run, none) => run.sweep ctx .negative .unscoped

/-- Processes all profiles and then the documents of unscoped files that are meant for some. -/
def complete (ctx : LoadContext) (run : Run) (h : run.memo = {}) : Progress :=
  sweepRest ctx (run.drain ctx run (coherent_of_memo_eq h))

/-- The run with which a load begins. -/
def start (env : Environment) (queue : ProfileQueue) (events : List Event) : Run :=
  { env, queue, events := events.toArray }

end Run

namespace Loader

/-- The locations and the names that a load probes. -/
def searched (loader : Loader) (env : Environment) :
    Except Failure (List String × List String) := do
  let locations ← loader.search.probedLocations env
  let names ← loader.search.probedNames env
  return (locations, names)

/-- The keys of the default properties that a load does not see. -/
def hiddenKeys : List String := [Key.active, Key.includes]

/-- The environment as a load sees it. -/
def hide (env : Environment) : Environment :=
  match env.chain.get? defaultPropertiesName with
  | some defaults => { env with chain := env.chain.replace (defaults.without hiddenKeys) }
  | none => env

/-- The environment with the default properties put back. -/
def restore (defaults : Option Source) (env : Environment) : Environment :=
  match defaults with
  | some defaults => { env with chain := env.chain.replace defaults }
  | none => env

/-- The search path and the queue with which a load begins, and the events so far. -/
def begin (loader : Loader) (env : Environment) :
    Except Failure ((List String × List String) × ProfileQueue × List Event) := do
  let searched ← loader.searched env
  let started ← ProfileQueue.start env
  return (searched, started)

/-- Makes the final profiles active. -/
def activateFinal (queue : ProfileQueue) (defaults : Option Source) (env : Environment) :
    Except Failure (List String × Environment) := do
  let active ← queue.finalActive defaults env
  let env ← env.setActive active
  return (active, env)

/-- Puts the collected documents into the chain and makes the final profiles active. -/
def finish (plan : Plan) (defaults : Option Source) (run : Run) : Outcome :=
  let (chain, added) := (Layers.ofPickups run.pickups).splice run.env.chain
  let env := restore defaults { run.env with chain }
  match activateFinal run.queue defaults env with
  | .error failure => { result := .error failure, env, events := run.events }
  | .ok (active, env) =>
    let report : Report :=
      { locations := plan.locations, names := plan.names, processed := run.queue.processed,
        added, active }
    { result := .ok report, env, events := run.events }

/-- What becomes of a load once its run is over. -/
def conclude (plan : Plan) (defaults : Option Source) : Progress → Outcome
  | (run, some failure) =>
    { result := .error failure, env := restore defaults run.env, events := run.events }
  | (run, none) => finish plan defaults run

/-- Loads every document that applies into an environment. -/
def load (loader : Loader) (store : Store) (env : Environment) : Outcome :=
  let defaults := env.chain.get? defaultPropertiesName
  let seen := hide env
  match loader.begin seen with
  | .error failure => { result := .error failure, env := restore defaults seen, events := #[] }
  | .ok ((locations, names), queue, events) =>
    let plan : Plan := { locations, names, registry := loader.registry }
    conclude plan defaults ((Run.start seen queue events).complete ⟨plan, store⟩ rfl)

end Loader

end LayeredConfig
