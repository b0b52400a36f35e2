import LayeredConfig.Environment

/-!
# Layers

The sources that a load collects are grouped by the profile for which they were found. At the
end the groups are put into the chain, the last one first, just above the default properties.

## Main definitions

* `Layers`, `Layers.accept`, `Layers.collected`.
* `Layers.splice`: a chain with the collected sources put in, and their names.
-/

namespace LayeredConfig

/-- How a source joins the group of its profile. -/
inductive Placement
  /-- At the end, in the place of an earlier one of its name. -/
  | append
  /-- At the front, unless some group has a source of its name. -/
  | prependIfAbsent
  deriving DecidableEq, Repr

/-- Collected sources by profile, in the order in which the groups began. -/
structure Layers where
  groups : List (Profile × Chain) := []
  deriving DecidableEq, Repr

namespace Layers

/-- Changes the group of a profile; a new group goes to the end. -/
def update (profile : Profile) (change : Chain → Chain) :
    List (Profile × Chain) → List (Profile × Chain)
  | [] => [(profile, change {})]
  | (p, chain) :: groups =>
    if p.same profile then (p, change chain) :: groups
    else (p, chain) :: update profile change groups

/-- Some group has a source of the name. -/
def contains (layers : Layers) (name : String) : Bool :=
  layers.groups.any fun (_, chain) => chain.contains name

/-- No source was collected. -/
def isEmpty (layers : Layers) : Bool :=
  layers.groups.all fun (_, chain) => chain.sources.isEmpty

/-- Collects a source for a profile. -/
def accept (layers : Layers) (profile : Profile) (source : Source) (placement : Placement) :
    Layers :=
  match placement with
  | .append => ⟨update profile (fun chain => chain.addLast source) layers.groups⟩
  | .prependIfAbsent =>
    if layers.contains source.name then layers
    else ⟨update profile (fun chain => chain.addFirst source) layers.groups⟩

/-- The collected sources, those of the last group first, each name once. -/
def collected (layers : Layers) : List Source :=
  (layers.groups.reverse.flatMap fun (_, chain) => chain.sources).eraseDupsBy
    fun a b => a.name == b.name

/-- Puts one source into a chain: after the one placed before it, or before the default
properties; where that cannot be, at the end. -/
def place (chain : Chain) (previous : Option String) (source : Source) : Chain :=
  let placed :=
    match previous with
    | some name => chain.addAfter? name source
    | none => chain.addBefore? defaultPropertiesName source
  placed.getD (chain.addLast source)

/-- Puts sources into a chain one after the other. -/
def placeAll (chain : Chain) (previous : Option String) : List Source → Chain
  | [] => chain
  | source :: sources => placeAll (place chain previous source) (some source.name) sources

/-- A chain with the collected sources put in, and their names in order. -/
def splice (layers : Layers) (chain : Chain) : Chain × List String :=
  (placeAll chain none layers.collected, layers.collected.map Source.name)

end Layers

end LayeredConfig
