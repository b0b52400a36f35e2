import LayeredConfig.Yaml.Node
import LayeredConfig.Yaml.Scalar

/-!
# The values of YAML documents

Scalars are typed, aliases replaced by what they refer to, and local tags kept. No mapping has
two equal keys.

Collections may be nested 128 deep, counting those that aliases bring in, and a document of a
given size may follow aliases a hundred times as often.

## Main definitions

* `Yaml.Value`, `Yaml.Value.same`.
* `Yaml.Node.value?`: the value of a document.
-/

namespace LayeredConfig.Yaml

/-- The value of a node. -/
inductive Value
  | scalar (value : Scalar)
  | sequence (items : List Value)
  | mapping (fields : List (Value × Value))
  | tagged (name : String) (value : Value)
  deriving Repr, Inhabited

/-- The two scalars are equal; the two zeros are. -/
def Scalar.same : Scalar → Scalar → Bool
  | .real x, .real y => x = y || (x.isZero && y.isZero)
  | x, y => x = y

namespace Value

mutual

/-- The two values are equal. The order of the fields of a mapping does not count. -/
def same : Value → Value → Bool
  | .scalar x, .scalar y => x.same y
  | .sequence xs, .sequence ys => sameItems xs ys
  | .mapping xs, .mapping ys => xs.length = ys.length && sameFields xs ys
  | .tagged name x, .tagged name' y => name = name' && same x y
  | _, _ => false

/-- The items are equal, one by one. -/
def sameItems : List Value → List Value → Bool
  | [], [] => true
  | x :: xs, y :: ys => same x y && sameItems xs ys
  | _, _ => false

/-- Each of the fields is among the others. -/
def sameFields : List (Value × Value) → List (Value × Value) → Bool
  | [], _ => true
  | (key, value) :: xs, ys =>
    (ys.any fun field => same key field.1 && same value field.2) && sameFields xs ys

end

/-- A mapping has a key. -/
def hasKey (key : Value) (fields : List (Value × Value)) : Bool :=
  fields.any fun field => key.same field.1

end Value

/-! ### Tags -/

/-- A name without the exclamation mark at its start, unless that is all of it. -/
def withoutMark (name : String) : String :=
  match name.toList with
  | '!' :: c :: rest => String.ofList (c :: rest)
  | _ => name

/-- The name of a local tag. There is none for a tag that is not local, or that is malformed. -/
def localName? (tag : Tag) : Option String :=
  match tag with
  | [] => none
  | first :: rest =>
    if first ≠ '!'.toUInt8 then none
    else
      let found := if rest.isEmpty then tag else rest
      (String.fromUTF8? ⟨found.toArray⟩).map withoutMark

/-! ### The values of nodes -/

namespace Node

/-- A value that may follow so many further aliases. -/
abbrev Counted (α : Type) : Type := StateT Nat Option α

/-- How deep collections may be nested. -/
def maxDepth : Nat := 128

/-- How often a document of size one may follow aliases. -/
def maxAliases : Nat := 100

/-- Follows an alias. -/
def countAlias : Counted Unit := do
  match ← get with
  | 0 => failure
  | left + 1 => set left

/-- The node with the given number that comes first among others. -/
def target? (targets : List (Nat × Node)) (number : Nat) : Option Node :=
  (targets.find? fun pair => pair.1 = number).map Prod.snd

/-- A node with the alias in its place followed; tells whether it was one. -/
def followed (targets : List (Nat × Node)) : Node → Counted (Node × Bool)
  | .alias number => do
    countAlias
    match target? targets number with
    | some node => return (node, true)
    | none => failure
  | node => return (node, false)

/-- The marks of a node. -/
def marks : Node → Marks
  | .alias _ => {}
  | .scalar marks _ _ => marks
  | .sequence marks _ => marks
  | .mapping marks _ => marks

/-- The value of a node, from which collections are nested up to `depth` deep. Where `isBare`
holds, the tag of the node does not count: it is the tag of the value around it, or the node is a
key of a mapping with a local tag. -/
def value (targets : List (Nat × Node)) : Nat → Bool → Node → Counted Value
  | depth, isBare, node => do
    let (node, isAlias) ← followed targets node
    let isBare := isBare && !isAlias
    let tag := node.marks.tag
    let name := if isBare then none else tag.bind localName?
    let isTagged := isBare || name.isSome
    let found ←
      match node, depth with
      | .scalar _ text isPlain, _ =>
        match Scalar.ofNode? (if isTagged then none else tag) text isPlain with
        | some typed => pure (Value.scalar typed)
        | none => failure
      | .sequence _ items, depth + 1 => do
        pure (Value.sequence (← items.mapM (value targets depth false)))
      | .mapping _ fields, depth + 1 => do
        let found ← fields.foldlM (fun found field => do
          let key ← value targets depth isTagged field.1
          if Value.hasKey key found then failure
          let content ← value targets depth false field.2
          return found ++ [(key, content)]) []
        pure (Value.mapping found)
      | _, _ => failure
    match name with
    | some name => return .tagged name found
    | none => return found

/-- The value of a document. Of the nodes with one number, aliases refer to the last one in the
text. -/
def value? (root : Node) : Option Value :=
  (value root.anchored.reverse maxDepth false root).run' (maxAliases * root.size)

end Node

end LayeredConfig.Yaml
