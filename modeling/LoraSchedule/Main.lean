import LoraSchedule.CommandLine.Run

/-!
# The program

Reads the files that a command line speaks of into a file tree, runs the command on it, and writes
what the command says.
-/

namespace LoraSchedule.Program

open LoraSchedule.CommandLine

/-- The names in a path. -/
def namesOf (p : Path) : List Bytes :=
  p.components.filterMap fun component =>
    match component with
    | .name name => some name
    | _ => none

/-- The tree with a link at a place, unless it is the place that the link leads to. -/
def addLink (tree : FileTree) (place target : List Bytes) : FileTree :=
  if place = target then tree
  else
    (tree.addDirectory place.dropLast).put place
      (.link ⟨Path.slash :: Text.joinWith [Path.slash] target⟩)

/-- Adds what is at a path to a tree, directories down to a depth. -/
def gather : (depth : Nat) → FileTree → String → IO FileTree
  | 0, tree, _ => pure tree
  | depth + 1, tree, text => do
    let place := (← IO.currentDir).join text
    if !(← place.pathExists) then return tree
    let names := namesOf (← IO.FS.realPath place).toString
    let tree := addLink tree (namesOf place.toString) names
    if ← place.isDir then
      (← place.readDir).foldlM (fun tree entry => gather depth tree entry.path.toString)
        (tree.addDirectory names)
    else return tree.addFile names (← IO.FS.readBinFile place).toList

/-- How deep directories are read. -/
def depthLimit : Nat := 64

/-- A path to the directory that a path lies in. -/
def folderOf (p : Path) : Path := p.withFileName [Path.point]

/-- Adds the files of a directory and of those above it that a path lies in. -/
def gatherAround (tree : FileTree) (p : Path) : IO FileTree := gather 2 tree (folderOf p).text

/-- The files that a command speaks of itself. -/
def mentioned : Command → List Path
  | .detect target _ _ => [target]
  | .stats paths _ => paths
  | .resolve schedule _ _ => schedule.toList
  | .parse _ | .presets => []

/-- The tree that a command line needs: the files around those it mentions, and the search roots of
its engine. -/
def gatherFor (env : Environment) (invocation : Invocation) : IO FileTree := do
  let tree ← invocation.config.toList.foldlM gatherAround env.files
  let tree ← (mentioned invocation.command).foldlM gatherAround tree
  match engineOf? { env with files := tree } invocation with
  | none => return tree
  | some engine =>
    engine.search.roots.foldlM (fun tree root => gather depthLimit tree root.text) tree

/-- Runs a command line in the current directory. -/
def run (arguments : List String) : IO UInt32 := do
  let here := namesOf (← IO.currentDir).toString
  let dataDirectory :=
    SearchPath.dataDirectory? (← IO.getEnv "XDG_DATA_HOME") (← IO.getEnv "HOME")
  let input ← if arguments.contains "-" then (← IO.getStdin).readToEnd else pure ""
  let bare : Environment :=
    { files := FileTree.addDirectory ⟨[], here⟩ here
      dataDirectory
      standardInput := input.toUTF8.toList }
  let files ←
    match CommandLine.read arguments with
    | .ok invocation => gatherFor bare invocation
    | .error _ => pure bare.files
  let outcome := CommandLine.run { bare with files } arguments
  IO.print outcome.output
  return outcome.exitCode.toUInt32

end LoraSchedule.Program

/-- Runs the command line that the program was started with. -/
def main (arguments : List String) : IO UInt32 := LoraSchedule.Program.run arguments
