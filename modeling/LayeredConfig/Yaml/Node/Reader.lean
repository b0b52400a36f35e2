import LayeredConfig.Source
import LayeredConfig.Yaml.Node
import LayeredConfig.Yaml.Token.Lexer

/-!
# Reading the nodes of a YAML text

A reader takes tokens off the front. Where a node may be left out, the token that follows
decides; a node that is left out is an empty plain scalar.

## Main definitions

* `Yaml.node`: a node with all that is in it.
* `Yaml.documents`: the documents of a text.
-/

namespace LayeredConfig.Yaml

/-- What is still to be read, with what has been declared so far. -/
structure Draft where
  tokens : List Token
  /-- The names of the anchors of the document, each with its latest number. -/
  anchors : List (String × Nat) := []
  /-- The handles of the document with what they stand for. -/
  handles : List (List Char × Tag) := []

/-- Takes something off the front of the tokens, or refuses. -/
abbrev TokenReader (α : Type) : Type := StateT Draft Option α

namespace TokenReader

/-- The next token. -/
def peek : TokenReader (Option Token) := do return (← get).tokens.head?

/-- Takes the next token. -/
def skip : TokenReader Unit := modify fun draft => { draft with tokens := draft.tokens.tail }

/-- Takes the next token if it is the given one. -/
def accept (token : Token) : TokenReader Bool := do
  if (← peek) = some token then
    skip
    return true
  else return false

/-- Takes the given token. -/
def expect (token : Token) : TokenReader Unit := do
  if !(← accept token) then failure

/-- Takes a node, unless one of the given tokens comes next. -/
def optional (stops : List Token) (node : TokenReader Node) : TokenReader Node := do
  if (← peek).any stops.contains then return Node.empty else node

end TokenReader

open TokenReader

/-! ### Marks -/

/-- The number of a new anchor: that of the names so far. -/
def declareAnchor (name : List Char) : TokenReader Nat := do
  let draft ← get
  let number := draft.anchors.length
  set { draft with anchors := Pairs.put (String.ofList name) number draft.anchors }
  return number

/-- The number of the anchor that an alias names. -/
def aliasTarget (name : List Char) : TokenReader Nat := do
  match Pairs.get? (String.ofList name) (← get).anchors with
  | some number => return number
  | none => failure

/-- The handles that need no declaration. -/
def builtInHandles : List (List Char × Tag) :=
  [("!".toList, bytes "!"), ("!!".toList, bytes "tag:yaml.org,2002:")]

/-- A tag without its handle, which must be known. -/
def wholeTag (handle : List Char) (suffix : Tag) : TokenReader Tag := do
  if handle.isEmpty then return suffix
  else
    let known := (← get).handles ++ builtInHandles
    match known.find? fun pair => pair.1 = handle with
    | some (_, start) => return start ++ suffix
    | none => failure

/-- Takes an anchor, if one comes next. -/
def anchorMark : TokenReader (Option (List Char)) := do
  match ← peek with
  | some (.anchor name) =>
    skip
    return some name
  | _ => return none

/-- Takes a tag, if one comes next. -/
def tagMark : TokenReader (Option (List Char × Tag)) := do
  match ← peek with
  | some (.tag handle suffix) =>
    skip
    return some (handle, suffix)
  | _ => return none

/-- Takes what stands before a node: an anchor and a tag in any order. -/
def marks : TokenReader Marks := do
  let early ← anchorMark
  let tag ← tagMark
  let late ← if early.isNone ∧ tag.isSome then anchorMark else pure none
  let tag ← tag.mapM fun (handle, suffix) => wholeTag handle suffix
  let anchor ← (early.or late).mapM declareAnchor
  return { anchor, tag }

/-! ### Collections in lines -/

/-- The items of a sequence. `limit` exceeds their number. -/
def items (node : TokenReader Node) : Nat → TokenReader (List Node)
  | 0 => failure
  | limit + 1 => do
    if ← accept .dash then
      let item ← optional [.dash, .blockEnd] node
      return item :: (← items node limit)
    else
      expect .blockEnd
      return []

/-- The items of a sequence in the column of the mapping around it. `limit` exceeds their
number. -/
def hangingItems (node : TokenReader Node) : Nat → TokenReader (List Node)
  | 0 => failure
  | limit + 1 => do
    if ← accept .dash then
      let item ← optional [.dash, .key, .value, .blockEnd] node
      return item :: (← hangingItems node limit)
    else return []

/-- The fields of a mapping. `limit` exceeds their number. -/
def fields (node : TokenReader Node) : Nat → TokenReader (List (Node × Node))
  | 0 => failure
  | limit + 1 => do
    let stops := [.key, .value, .blockEnd]
    if ← accept .blockEnd then return []
    else
      expect .key
      let key ← optional stops node
      let value ← if ← accept .value then optional stops node else pure Node.empty
      return (key, value) :: (← fields node limit)

/-! ### Collections in brackets -/

/-- Takes the comma before an item or a field, unless it is the first one or the collection
ends. -/
def separator (isFirst : Bool) (closing : Token) : TokenReader Unit := do
  if !isFirst ∧ (← peek) ≠ some closing then expect .comma

/-- A mapping with a single field as an item, after its key token. Where the key is left out, the
next token is lost. -/
def pair (node : TokenReader Node) : TokenReader Node := do
  let keyIsMissing := (← peek).any [Token.value, .comma, .closeBracket].contains
  let key ←
    if keyIsMissing then do
      skip
      pure Node.empty
    else node
  let value ←
    if ← accept .value then optional [.comma, .closeBracket] node else pure Node.empty
  return .mapping {} [(key, value)]

/-- The items of a sequence in brackets. `limit` exceeds their number. -/
def bracketItems (node : TokenReader Node) (isFirst : Bool) : Nat → TokenReader (List Node)
  | 0 => failure
  | limit + 1 => do
    separator isFirst .closeBracket
    if ← accept .closeBracket then return []
    else
      let item ← if ← accept .key then pair node else node
      return item :: (← bracketItems node false limit)

/-- The fields of a mapping in braces. `limit` exceeds their number. -/
def braceFields (node : TokenReader Node) (isFirst : Bool) : Nat → TokenReader (List (Node × Node))
  | 0 => failure
  | limit + 1 => do
    separator isFirst .closeBrace
    if ← accept .closeBrace then return []
    else
      let stops := [.comma, .closeBrace]
      if ← accept .key then
        let key ← optional (.value :: stops) node
        let value ← if ← accept .value then optional stops node else pure Node.empty
        return (key, value) :: (← braceFields node false limit)
      else
        let key ← node
        return (key, Node.empty) :: (← braceFields node false limit)

/-! ### Nodes -/

/-- Where a node stands. -/
inductive Position
  | line
  /-- After a key of a mapping that is laid out in lines. -/
  | field
  | bracket
  deriving DecidableEq, Repr

/-- A scalar. The tag `!` only says that a scalar has no other tag. -/
def scalarNode (marks : Marks) (text : List Char) (isPlain : Bool) : Node :=
  let tag := if marks.tag = some (bytes "!") then none else marks.tag
  .scalar { marks with tag } (String.ofList text) isPlain

/-- A node with all that is in it, in which collections are nested up to `depth` deep. `limit`
exceeds the number of tokens. -/
def node (limit : Nat) : Nat → Position → TokenReader Node
  | 0, _ => failure
  | depth + 1, position => do
    match ← peek with
    | some (.alias name) =>
      skip
      return .alias (← aliasTarget name)
    | _ =>
      let marks ← marks
      match ← peek with
      | some (.scalar text isPlain) =>
        skip
        return scalarNode marks text isPlain
      | some .openBracket =>
        skip
        return .sequence marks (← bracketItems (node limit depth .bracket) true limit)
      | some .openBrace =>
        skip
        return .mapping marks (← braceFields (node limit depth .bracket) true limit)
      | other =>
        if position = .field ∧ other = some .dash then
          return .sequence marks (← hangingItems (node limit depth .line) limit)
        else if position ≠ .bracket ∧ other = some .sequenceStart then
          skip
          return .sequence marks (← items (node limit depth .line) limit)
        else if position ≠ .bracket ∧ other = some .mappingStart then
          skip
          return .mapping marks (← fields (node limit depth .field) limit)
        else if marks = {} then failure
        else return .scalar marks "" true

/-! ### Documents -/

/-- A version of the language that is understood. -/
def isKnownVersion (major minor : Nat) : Bool := major = 1 && (minor = 1 || minor = 2)

/-- Takes the directives of a document: at most one for the version and one for each handle.
`limit` exceeds their number. -/
def directives (hasVersion : Bool) : Nat → TokenReader Unit
  | 0 => failure
  | limit + 1 => do
    match ← peek with
    | some (.version major minor) =>
      if hasVersion || !isKnownVersion major minor then failure
      skip
      directives true limit
    | some (.handle name start) =>
      let draft ← get
      if draft.handles.any fun pair => pair.1 = name then failure
      skip
      modify fun draft => { draft with handles := (name, start) :: draft.handles }
      directives hasVersion limit
    | _ => return ()

/-- A token that only stands before or after a document. -/
def isOutside : Token → Bool
  | .version _ _ | .handle _ _ | .documentStart | .documentEnd => true
  | _ => false

/-- Takes document ends. `limit` exceeds their number. -/
def skipEnds : Nat → TokenReader Unit
  | 0 => failure
  | limit + 1 => do
    if ← accept .documentEnd then skipEnds limit

/-- Takes a document after its first mark, which may be left out in front of the first document.
`limit` exceeds the number of tokens. -/
def content (limit : Nat) (isMarked : Bool) : TokenReader Node := do
  modify fun draft => { draft with anchors := [] }
  let next ← peek
  let root ←
    if isMarked ∧ next.all isOutside then pure Node.empty else node limit limit .line
  modify fun draft => { draft with handles := [] }
  let _ ← accept .documentEnd
  return root

/-- Takes the documents from the first one on or, where `isFirst` does not hold, from a later one
on. `limit` exceeds the number of tokens. -/
def documentsFrom (limit : Nat) : Nat → Bool → TokenReader (List Node)
  | 0, _ => failure
  | count + 1, isFirst => do
    if !isFirst then skipEnds limit
    match ← peek with
    | none => return []
    | some next =>
      let isMarked := !isFirst || (isOutside next && next != .documentEnd)
      if isMarked then
        directives false limit
        expect .documentStart
      let root ← content limit isMarked
      return root :: (← documentsFrom limit count false)

/-- The documents of a text. -/
def documents (text : String) : Option (List Node) := do
  let tokens ← tokens text.toList
  let limit := tokens.length + 1
  (documentsFrom limit limit true).run' { tokens }

end LayeredConfig.Yaml
