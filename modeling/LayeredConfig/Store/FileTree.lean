import LayeredConfig.Failure
import LayeredConfig.Path

/-!
# Files below a root

A file tree is a finite list of files and directories, each under the names that lead to it
from the root. A path is walked one name after the other: every step needs a directory to
start from, a dot stays and `..` goes up.

Symbolic links are left out. What stands under a name is a file or a directory of its own, so `..`
always leads back to where the name was found.

## Main definitions

* `FileNode`, `FileTree`.
* `FileTree.find`: what a path leads to, or why it leads nowhere.
* `FileTree.readText`: the text of the file that a path leads to.
-/

namespace LayeredConfig

/-- What stands under a name. -/
inductive FileNode
  | directory
  /-- A file with its text, or with none where its bytes are not UTF-8. -/
  | file (text : Option String)
  deriving DecidableEq, Repr

/-- Files and directories by the names that lead to them, and the directory that relative
paths start from. -/
structure FileTree where
  entries : List (List String × FileNode) := []
  workingDirectory : List String := []
  deriving DecidableEq, Repr

namespace FileTree

/-- What stands under the given names. The directories above an entry are there too. -/
def node? (tree : FileTree) (names : List String) : Option FileNode :=
  match tree.entries.lookup names with
  | some node => some node
  | none =>
    if names = [] ∨ names.isPrefixOf tree.workingDirectory ∨
        tree.entries.any fun (path, _) => names.isPrefixOf path
    then some .directory
    else none

/-- One step of a walk, from the directory with the given names. -/
def step (tree : FileTree) (names : List String) (name : String) :
    Except ReadFault (List String) :=
  match tree.node? names with
  | none => .error .noSuchFile
  | some (.file _) => .error .notDirectory
  | some .directory =>
    if name = "" ∨ name = "." then .ok names
    else if name = ".." then .ok names.dropLast
    else
      match tree.node? (names ++ [name]) with
      | some _ => .ok (names ++ [name])
      | none => .error .noSuchFile

/-- The names that a path leads to. -/
def walk (tree : FileTree) (path : String) : Except ReadFault (List String) :=
  if path = "" then .error .noSuchFile
  else
    let start := if Path.isAbsolute path then [] else tree.workingDirectory
    ((path.toList.splitOn '/').map String.ofList).foldlM tree.step start

/-- What a path leads to. -/
def find (tree : FileTree) (path : String) : Except ReadFault FileNode :=
  match tree.walk path with
  | .error fault => .error fault
  | .ok names =>
    match tree.node? names with
    | some node => .ok node
    | none => .error .noSuchFile

/-- A path leads to a file. -/
def isFile (tree : FileTree) (path : String) : Bool :=
  match tree.find path with
  | .ok (.file _) => true
  | _ => false

/-- A path leads to something. -/
def contains (tree : FileTree) (path : String) : Bool :=
  match tree.find path with
  | .ok _ => true
  | .error _ => false

/-- The text of the file that a path leads to. -/
def readText (tree : FileTree) (path : String) : Except ReadFault String :=
  match tree.find path with
  | .error fault => .error fault
  | .ok .directory => .error .isDirectory
  | .ok (.file none) => .error .notText
  | .ok (.file (some text)) => .ok text

end FileTree

end LayeredConfig
