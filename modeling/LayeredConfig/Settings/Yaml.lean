import LayeredConfig.Settings
import LayeredConfig.Yaml.Merge
import LayeredConfig.Yaml.Node.Reader

/-!
# Settings in YAML

The fields of a settings file have the names of the settings with underscores. A field that is
missing counts as empty, and one with another name for nothing. Where a text is expected, every
scalar is one, as it is written.

## Main definitions

* `Settings.ofYaml?`.
-/

namespace LayeredConfig.Settings

open Yaml.Node (Counted followed)

/-- Nodes with a number, which aliases refer to. -/
abbrev Targets : Type := List (Nat × Yaml.Node)

/-- The text of a scalar, as it is written. -/
def nodeText (targets : Targets) (node : Yaml.Node) : Counted String := do
  match (← followed targets node).1 with
  | .scalar _ text _ => return text
  | _ => failure

/-- The text of a scalar, unless that is null. -/
def nodeText? (targets : Targets) (node : Yaml.Node) : Counted (Option String) := do
  match (← followed targets node).1 with
  | .scalar marks text isPlain =>
    let isNull := Yaml.Scalar.isNullWord text
    if !isPlain then return some text
    else if marks.tag = some (Yaml.Scalar.coreTag "null") then
      if isNull then return none else failure
    else if marks.tag.isSome || !(isNull || text.isEmpty) then return some text
    else return none
  | _ => failure

/-- The texts of a sequence of scalars. An empty plain scalar is an empty sequence. -/
def nodeTexts (targets : Targets) (node : Yaml.Node) : Counted (List String) := do
  match (← followed targets node).1 with
  | .sequence _ items => items.mapM (nodeText targets)
  | .scalar _ "" true => return []
  | _ => failure

/-- The structured value of a node, from which collections are nested up to `depth` deep. Local
tags are refused. Keys are texts, the last of several equal ones counts, and none of them makes a
mapping take in fields. -/
def nodeTree (targets : Targets) : Nat → Yaml.Node → Counted Tree
  | depth, node => do
    let (node, _) ← followed targets node
    let tag := node.marks.tag
    if (tag.bind Yaml.localName?).isSome then failure
    match node, depth with
    | .scalar _ text isPlain, _ =>
      match Yaml.Scalar.ofNode? tag text isPlain with
      | some typed => return Yaml.Value.scalarTree typed
      | none => failure
    | .sequence _ items, depth + 1 => return .list (← items.mapM (nodeTree targets depth))
    | .mapping _ fields, depth + 1 =>
      let found ← fields.mapM fun field => do
        return (← nodeText targets field.1, ← nodeTree targets depth field.2)
      return .table (Pairs.ofList found)
    | _, _ => failure

/-- The fields of a mapping as structured values, whatever its tag. An empty plain scalar is an
empty mapping. -/
def nodeTable (targets : Targets) (depth : Nat) (node : Yaml.Node) :
    Counted (List (String × Tree)) := do
  match (← followed targets node).1 with
  | .mapping _ fields =>
    let found ← fields.mapM fun field => do
      return (← nodeText targets field.1, ← nodeTree targets depth field.2)
    return Pairs.ofList found
  | .scalar _ "" true => return []
  | _ => failure

/-- The settings of the fields of a document. No setting is given twice. -/
def ofFields (targets : Targets) (fields : List (Yaml.Node × Yaml.Node)) : Counted Settings := do
  let named ← fields.mapM fun field => do return (← nodeText targets field.1, field.2)
  if Field.all.any fun name => (named.filter fun field => field.1 = name).length > 1 then failure
  let node (name : String) : Option Yaml.Node := Pairs.get? name named
  let texts (name : String) : Counted (List String) :=
    (node name).elim (pure []) (nodeTexts targets)
  let text (name : String) : Counted (Option String) :=
    (node name).elim (pure none) (nodeText? targets)
  return {
    searchLocations := ← text Field.searchLocations
    searchNames := ← text Field.searchNames
    classpath := ← texts Field.classpath
    defaultProfiles := ← texts Field.defaultProfiles
    defaultProperties :=
      ← (node Field.defaultProperties).elim (pure [])
        (nodeTable targets (Yaml.Node.maxDepth - 2)) }

/-- The settings of a document. An empty plain scalar stands for an empty document. -/
def ofDocument? (root : Yaml.Node) : Option Settings :=
  match root with
  | .mapping _ fields =>
    (ofFields root.anchored.reverse fields).run' (Yaml.Node.maxAliases * root.size)
  | .scalar _ "" true => some {}
  | _ => none

/-- The settings of a YAML text, which holds at most one document. -/
def ofYaml? (text : String) : Option Settings := do
  match ← Yaml.documents text with
  | [] => return {}
  | [root] => ofDocument? root
  | _ => none

end LayeredConfig.Settings
