import LayeredConfig.Yaml.Token

/-!
# The nodes of a YAML document

A document is a tree of nodes. An anchor gives a node a number, by which aliases in the same
document refer to it.

## Main definitions

* `Yaml.Node`, `Yaml.Node.size`.
* `Yaml.Node.anchored`: the nodes that aliases may refer to.
-/

namespace LayeredConfig.Yaml

/-- What stands before a node. -/
structure Marks where
  anchor : Option Nat := none
  tag : Option Tag := none
  deriving DecidableEq, Repr

/-- A node of a document. -/
inductive Node
  | alias (target : Nat)
  | scalar (marks : Marks) (text : String) (isPlain : Bool)
  | sequence (marks : Marks) (items : List Node)
  | mapping (marks : Marks) (fields : List (Node × Node))
  deriving Repr, Inhabited

namespace Node

/-- A node that is left out. -/
def empty : Node := .scalar {} "" true

/-- A node with its number, as far as it has one. -/
def numbered (marks : Marks) (node : Node) : List (Nat × Node) :=
  (marks.anchor.map (·, node)).toList

mutual

/-- The number of scalars and aliases, with two for each collection. -/
def size : Node → Nat
  | .alias _ => 1
  | .scalar _ _ _ => 1
  | .sequence _ items => 2 + itemsSize items
  | .mapping _ fields => 2 + fieldsSize fields

/-- The size of the items of a sequence. -/
def itemsSize : List Node → Nat
  | [] => 0
  | item :: items => item.size + itemsSize items

/-- The size of the fields of a mapping. -/
def fieldsSize : List (Node × Node) → Nat
  | [] => 0
  | (key, value) :: fields => key.size + value.size + fieldsSize fields

end

mutual

/-- The nodes with a number, in the order of the text. -/
def anchored : Node → List (Nat × Node)
  | .alias _ => []
  | .scalar marks text isPlain => numbered marks (.scalar marks text isPlain)
  | .sequence marks items => numbered marks (.sequence marks items) ++ itemsAnchored items
  | .mapping marks fields => numbered marks (.mapping marks fields) ++ fieldsAnchored fields

/-- The items of a sequence with a number and those in them. -/
def itemsAnchored : List Node → List (Nat × Node)
  | [] => []
  | item :: items => item.anchored ++ itemsAnchored items

/-- The fields of a mapping with a number and those in them. -/
def fieldsAnchored : List (Node × Node) → List (Nat × Node)
  | [] => []
  | (key, value) :: fields => key.anchored ++ (value.anchored ++ fieldsAnchored fields)

end

end Node

end LayeredConfig.Yaml
