/-!
# Events of a load

A load reports what it found at each location and what happened to the profiles.

## Main definitions

* `Event`, `Event.level`, `Event.location?`, `Event.text`.
-/

namespace LayeredConfig

/-- What a probe of a location found. -/
inductive Finding
  /-- Nothing exists at the location. -/
  | missing
  /-- The name of the file has no extension. -/
  | withoutExtension
  /-- The file holds no document. -/
  | empty
  /-- At least one document of the file applies. -/
  | loaded
  deriving DecidableEq, Repr

/-- How much an event matters. -/
inductive Level
  | trace
  | debug
  deriving DecidableEq, Repr

/-- Something that a load reports. -/
inductive Event
  /-- A location was probed for a profile. -/
  | probed (finding : Finding) (location : String) (profile : Option String)
  /-- Profiles were activated, which locks activation. -/
  | activated (profiles : List String)
  /-- Profiles were to be activated after activation was locked. -/
  | activationIgnored (profiles : List String)
  /-- Profiles were put at the front of the queue. -/
  | included (profiles : List String)
  deriving DecidableEq, Repr

namespace Finding

/-- The words that introduce the location. -/
def lead : Finding → String
  | missing => "Skipped missing config"
  | withoutExtension => "Skipped empty config extension"
  | empty => "Skipped unloaded config"
  | loaded => "Loaded config file"

end Finding

namespace Level

/-- The name of the level. -/
def text : Level → String
  | trace => "TRACE"
  | debug => "DEBUG"

end Level

namespace Event

/-- A location where nothing was loaded matters less than anything else. -/
def level : Event → Level
  | probed .loaded _ _ => .debug
  | probed _ _ _ => .trace
  | _ => .debug

/-- The location that was probed. -/
def location? : Event → Option String
  | probed _ location _ => some location
  | _ => none

/-- The event in words. -/
def text : Event → String
  | probed finding location profile =>
    finding.lead ++ " '" ++ location ++ "'" ++
      match profile with
      | some name => " for profile " ++ name
      | none => ""
  | activated profiles => "Activated profiles " ++ ",".intercalate profiles
  | activationIgnored profiles =>
    "Profiles already activated, '[" ++ ", ".intercalate profiles ++ "]' will not be applied"
  | included profiles => "Included profiles " ++ ",".intercalate profiles

end Event

end LayeredConfig
