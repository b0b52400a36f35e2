import LayeredConfig.Source

/-!
# The chain of sources

Sources stand in order of precedence, the highest first. Their names are distinct: a source
that is added takes the place of any other of its name.

## Main definitions

* `Chain`, with `addFirst`, `addLast`, `addBefore?`, `addAfter?`, `erase` and `replace`.
* `Chain.property?`: the value of a key in the first source that has it.
-/

namespace LayeredConfig

/-- Sources in order of precedence, the highest first. -/
structure Chain where
  sources : List Source := []
  deriving DecidableEq, Repr

namespace Chain

/-- The names of the sources in order. -/
def names (chain : Chain) : List String :=
  chain.sources.map Source.name

/-- The number of sources. -/
def size (chain : Chain) : Nat :=
  chain.sources.length

/-- The source of a name. -/
def get? (chain : Chain) (name : String) : Option Source :=
  chain.sources.find? fun source => source.name = name

/-- There is a source of the name. -/
def contains (chain : Chain) (name : String) : Bool :=
  chain.sources.any fun source => source.name = name

/-- The chain without the source of a name. -/
def erase (chain : Chain) (name : String) : Chain :=
  ⟨chain.sources.filter fun source => source.name != name⟩

/-- Adds a source of highest precedence. -/
def addFirst (chain : Chain) (source : Source) : Chain :=
  ⟨source :: (chain.erase source.name).sources⟩

/-- Adds a source of lowest precedence. -/
def addLast (chain : Chain) (source : Source) : Chain :=
  ⟨(chain.erase source.name).sources ++ [source]⟩

/-- Another source of the chain can be named as the neighbour of `source`. -/
def isNeighbour (chain : Chain) (relative : String) (source : Source) : Bool :=
  chain.contains relative && relative != source.name

/-- Adds a source directly before another one, unless that is absent or of the same name. -/
def addBefore? (chain : Chain) (relative : String) (source : Source) : Option Chain :=
  if chain.isNeighbour relative source then
    some ⟨(chain.erase source.name).sources.flatMap fun other =>
      if other.name = relative then [source, other] else [other]⟩
  else none

/-- Adds a source directly after another one, unless that is absent or of the same name. -/
def addAfter? (chain : Chain) (relative : String) (source : Source) : Option Chain :=
  if chain.isNeighbour relative source then
    some ⟨(chain.erase source.name).sources.flatMap fun other =>
      if other.name = relative then [other, source] else [other]⟩
  else none

/-- Puts a source in the place of the one of its name; without one, nothing changes. -/
def replace (chain : Chain) (source : Source) : Chain :=
  ⟨chain.sources.map fun other => if other.name = source.name then source else other⟩

/-- The property of a key in the first source that has it. -/
def property? (chain : Chain) (key : String) : Option Property :=
  chain.sources.findSome? fun source => source.get? key

/-- The chain that results from adding the given sources at the end, one after the other. -/
def ofSources (sources : List Source) : Chain :=
  sources.foldl addLast {}

end Chain

end LayeredConfig
