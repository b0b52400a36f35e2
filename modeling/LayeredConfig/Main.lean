import LayeredConfig.CommandLine

/-!
# The program

Everything that the program reads is collected first: its arguments, the variables of the process
and, as long as a run looks at further paths, the files at those paths. The answer is then that of
`CommandLine.run`.
-/

namespace LayeredConfig.Program

open CommandLine (World)

/-- The variables of the process. -/
def readVariables : IO (List (String × String)) := do
  let bytes ← try IO.FS.readBinFile "/proc/self/environ" catch _ => pure .empty
  let entries := ((String.fromUTF8? bytes).getD "").toList.splitOn '\x00'
  return Pairs.ofList <| entries.filterMap fun entry =>
    (Text.cutFirst '=' entry).map fun (name, value) => (String.ofList name, String.ofList value)

/-- What stands at the names below the root of the file system, if anything. -/
def readNode? (names : List String) : IO (Option FileNode) := do
  let directory ← IO.currentDir
  let path := directory / ("/" ++ "/".intercalate names)
  if ← path.isDir then return some .directory
  else if ← path.pathExists then
    let bytes ← IO.FS.readBinFile path
    return some (.file (String.fromUTF8? bytes))
  else return none

/-- The files with those that a path leads through, from the directory with the given names. -/
def survey (files : FileTree) (names : List String) : List String → IO FileTree
  | [] => return files
  | name :: rest => do
    if name = ".." then survey files names.dropLast rest
    else
      let below := names ++ [name]
      match ← readNode? below with
      | none => return files
      | some node =>
        let isKnown := files.entries.any fun entry => entry.1 = below
        let entries := if isKnown then files.entries else (below, node) :: files.entries
        survey { files with entries } below rest

/-- The world with the files that a run looks at, after at most so many rounds. -/
def gather : Nat → World → IO World
  | 0, world => return world
  | rounds + 1, world => do
    let names (path : String) := (Path.names (Path.join world.directory path)).map String.ofList
    let files ← (CommandLine.wanted world).foldlM
      (fun files path => survey files [] (names path)) world.files
    if files.entries.length = world.files.entries.length then return world
    else gather rounds { world with files }

end LayeredConfig.Program

open LayeredConfig in
/-- Answers the arguments of the program. -/
def main (arguments : List String) : IO UInt32 := do
  let vars ← Program.readVariables
  let directory ← IO.currentDir
  let workingDirectory := (Path.names directory.toString).map String.ofList
  let world ← Program.gather 10000 { arguments, vars, files := { workingDirectory } }
  let answer := CommandLine.run world
  IO.print answer.out
  IO.eprint answer.err
  return answer.code.toUInt32
