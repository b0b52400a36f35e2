import LayeredConfig.Document
import LayeredConfig.SearchPath

/-!
# What a load looks at for one profile

For each profile a load goes through the search path. A location that names a file is looked
at as it is. A directory is combined with every name and every known extension, and for a named
profile first the files that carry the profile in their name are looked at, then those of the
profiles that are done.

## Main definitions

* `Probe`: one look at a location.
* `Plan`, `Plan.probes`: all looks for a profile in order.
-/

namespace LayeredConfig

/-- One look at a location. -/
structure Probe where
  location : String
  /-- The index of the format to read with; there is none where no format is meant for the
  location. -/
  index : Option Nat
  /-- The profile that the documents are chosen by. -/
  selector : Profile
  deriving DecidableEq, Repr

/-- Where a load looks, in probe order, and with which formats. -/
structure Plan where
  locations : List String
  names : List String
  registry : Registry

namespace Plan

/-- The file of a profile beside the file `stem.extension`. -/
def profileFile (stem profile extension : String) : String :=
  stem ++ "-" ++ profile ++ "." ++ extension

/-- The looks at the files of one stem and one extension. The file of a named profile is
looked at twice, for documents that declare nothing and for those that declare the profile. -/
def stemProbes (processed : List Profile) (profile : Profile) (stem : String) (handler : Handler) :
    List Probe :=
  let look (location : String) (selector : Profile) : Probe :=
    { location, index := some handler.index, selector }
  let own := look (stem ++ "." ++ handler.extension) profile
  match profile.name? with
  | none => [own]
  | some name =>
    let specific := profileFile stem name handler.extension
    let earlier := (Profile.names processed).map fun other =>
      look (profileFile stem other handler.extension) profile
    look specific .unscoped :: look specific profile :: earlier ++ [own]

/-- The looks at one location. -/
def locationProbes (plan : Plan) (processed : List Profile) (profile : Profile)
    (location : String) : List Probe :=
  if Path.isDirectory location then
    plan.names.flatMap fun name =>
      plan.registry.handlers.flatMap (stemProbes processed profile (location ++ name))
  else
    [{ location, index := plan.registry.forLocation? location, selector := profile }]

/-- The looks for a profile after those in `processed`. -/
def probes (plan : Plan) (processed : List Profile) (profile : Profile) : List Probe :=
  plan.locations.flatMap (plan.locationProbes processed profile)

end Plan

end LayeredConfig
