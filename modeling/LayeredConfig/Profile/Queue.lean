import LayeredConfig.Environment
import LayeredConfig.Event

/-!
# The queue of profiles

The profiles of a load wait in a queue and are processed one at a time, each at most once.
While one is processed, others may be activated, which appends them and works only once, or
included, which puts them at the front.

## Main definitions

* `ProfileQueue`, with `activate`, `includeFirst`, `next` and `markProcessed`.
* `ProfileQueue.start`: the queue with which a load begins.
* `ProfileQueue.finalActive`: the active profiles with which it ends.
-/

namespace LayeredConfig

/-- The profiles that wait and those that are done, in order. -/
structure ProfileQueue where
  pending : List Profile := []
  processed : List Profile := []
  isActivated : Bool := false
  deriving DecidableEq, Repr

namespace ProfileQueue

/-- Appends profiles and locks activation, which drops the fallbacks that still wait. Once it
is locked, nothing happens but an event. -/
def activate (queue : ProfileQueue) (profiles : List Profile) : ProfileQueue × List Event :=
  if profiles.isEmpty then (queue, [])
  else if queue.isActivated then (queue, [.activationIgnored (Profile.names profiles)])
  else
    ({ queue with
        pending := (queue.pending ++ profiles).filter fun p => !p.isFallback
        isActivated := true },
      [.activated (Profile.names profiles)])

/-- Puts profiles before all that wait, without those that are done. -/
def includeFirst (queue : ProfileQueue) (profiles : List Profile) :
    ProfileQueue × List Event :=
  if profiles.isEmpty then (queue, [])
  else
    ({ queue with
        pending := (profiles ++ queue.pending).filter fun p => !p.isIn queue.processed },
      [.included (Profile.names profiles)])

/-- The next profile that is not done, and the queue without it. -/
def next (queue : ProfileQueue) : Option Profile × ProfileQueue :=
  match queue.pending.dropWhile fun p => p.isIn queue.processed with
  | [] => (none, { queue with pending := [] })
  | profile :: pending => (some profile, { queue with pending })

/-- Counts a profile as done. -/
def markProcessed (queue : ProfileQueue) (profile : Profile) : ProfileQueue :=
  if profile.isIn queue.processed then queue
  else { queue with processed := queue.processed ++ [profile] }

/-- The queue with which a load begins: the unscoped profile, the profiles that are active for
another reason than the reserved keys, the included and the activated ones. If none of these is
named, the profiles to fall back to. -/
def start (env : Environment) : Except Failure (ProfileQueue × List Event) := do
  let activated ← env.profilesNamedBy Key.active
  let included ← env.profilesNamedBy Key.includes
  let active ← env.active
  let others := (active.map Profile.requested).filter fun p =>
    !p.isIn activated && !p.isIn included
  let (queue, events) :=
    activate { pending := .unscoped :: others ++ included } activated
  if queue.pending.length = 1 then
    let defaults ← env.defaults
    return ({ queue with pending := queue.pending ++ defaults.map .fallback }, events)
  return (queue, events)

/-- The names of the profiles that were asked for and are done. -/
def processedNames (queue : ProfileQueue) : List String :=
  Profile.names (queue.processed.filter Profile.isRequested)

/-- The active profiles with which a load ends: those that the default properties include,
those that they activate unless activation is locked, and those that were asked for and are
done, each once. -/
def finalActive (queue : ProfileQueue) (defaults : Option Source) (env : Environment) :
    Except Failure (List String) := do
  let named ←
    match defaults with
    | none => pure []
    | some source => do
      let included ← source.list? env.resolve Key.includes
      let activated ←
        if queue.isActivated then pure none else source.list? env.resolve Key.active
      pure (included.getD [] ++ activated.getD [])
  return (named ++ queue.processedNames).eraseDups

end ProfileQueue

end LayeredConfig
