import LayeredConfig.SearchPath
import LayeredConfig.Store.FileTree

/-!
# Resources

A store turns a location into a resource. One kind of store holds texts by location; the other
looks into a file tree, where `file:` locations are seen from a base directory and all others
from the roots of a class path, the first root that has the file winning.

## Main definitions

* `Resource`, with its file name, extension and content.
* `Store`, `Store.resource`.
-/

namespace LayeredConfig

/-- What was found at a location. -/
structure Resource where
  location : String
  /-- Two resources of one identity have the same content. -/
  identity : String
  fileName : Option String
  content : Except ReadFault String

namespace Resource

/-- The resource is there, whether or not its content is text. -/
def isThere (resource : Resource) : Bool :=
  match resource.content with
  | .ok _ => true
  | .error .notText => true
  | .error _ => false

/-- The part of the file name after its last dot, if any. -/
def extension? (resource : Resource) : Option String := do
  let name ← resource.fileName
  let (_, extension) ← Text.cutLast '.' name.toList
  if extension.isEmpty then none else some (String.ofList extension)

/-- The content, or the failure to read it. -/
def text (resource : Resource) : Except Failure String :=
  match resource.content with
  | .ok text => .ok text
  | .error fault => .error (.unreadable resource.location fault)

/-- The last name of a location: what follows its last slash or colon, if anything. -/
def lastName? (location : String) : Option String :=
  let name := (location.toList.reverse.takeWhile fun c => c != '/' && c != ':').reverse
  if name.isEmpty then none else some (String.ofList name)

/-- A resource held as text. -/
def ofText (location : String) (content : Option String) : Resource where
  location := location
  identity := location
  fileName := lastName? location
  content := content.elim (.error .absent) .ok

/-- The resource at a path of a file tree. -/
def ofFile (tree : FileTree) (location path : String) : Resource where
  location := location
  identity := path
  fileName := Path.fileName? path
  content := tree.readText path

end Resource

/-- Where locations lead to. -/
inductive Store
  /-- Texts by location. -/
  | texts (byLocation : List (String × String))
  /-- A file tree with a base directory, the roots of the class path and the home
  directory. -/
  | fileTree (tree : FileTree) (base : String) (classpath : List String) (home : Option String)
  deriving DecidableEq, Repr

namespace Store

/-- A location on the class path with one slash after its prefix; any other as it is. -/
def normalized (location : String) : String :=
  match Text.afterStart? classpathPrefix.toList location.toList with
  | some rest => classpathPrefix ++ "/" ++ String.ofList (rest.dropWhile (· == '/'))
  | none => location

/-- The store of the given texts; of two under one location, the later counts. -/
def ofTexts (files : List (String × String)) : Store :=
  .texts (Pairs.ofList (files.map fun (location, text) => (normalized location, text)))

/-- A path in which a leading `~/` stands for the home directory. -/
def expandHome (home : Option String) (path : String) : String :=
  match Text.afterStart? ['~', '/'] path.toList, home with
  | some rest, some home => Path.join home (String.ofList rest)
  | _, _ => path

/-- The path of a location after `file:`. -/
def filePath (base : String) (home : Option String) (rest : List Char) : String :=
  let path := (Text.afterStart? ['/', '/'] rest).getD rest
  Path.join base (expandHome home (String.ofList path))

/-- The path of a location on the class path: in the first root that has the file, or else in
the first root. -/
def classpathPath? (tree : FileTree) (classpath : List String) (rest : List Char) :
    Option String :=
  let relative := String.ofList (rest.dropWhile (· == '/'))
  let candidates := classpath.map fun root => Path.join root relative
  (candidates.find? tree.isFile).or candidates.head?

/-- The path in a file tree that a location leads to. -/
def path? (tree : FileTree) (base : String) (classpath : List String) (home : Option String)
    (location : String) : Option String :=
  match Text.afterStart? filePrefix.toList location.toList with
  | some rest => some (filePath base home rest)
  | none =>
    let chars := location.toList
    classpathPath? tree classpath ((Text.afterStart? classpathPrefix.toList chars).getD chars)

/-- The resource at a location. -/
def resource (store : Store) (location : String) : Resource :=
  match store with
  | .texts byLocation => .ofText location (Pairs.get? (normalized location) byLocation)
  | .fileTree tree base classpath home =>
    match path? tree base classpath home location with
    | some path => .ofFile tree location path
    | none => .ofText location none

/-- All texts that a store holds. -/
def contents : Store → List String
  | .texts byLocation => byLocation.map Prod.snd
  | .fileTree tree _ _ _ => tree.entries.filterMap fun (_, node) =>
    match node with
    | .file text => text
    | .directory => none

end Store

end LayeredConfig
