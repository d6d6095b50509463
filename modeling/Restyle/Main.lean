import Restyle.CommandLine

/-!
Contract: the command.

Owns: `main`, which reads the directories that the arguments name, lets
`CommandLine.execute` decide what to do, and does it.

Does not own: any decision.  A run sees the input and output directories and the
manifest as they are when it starts, and nothing else.
-/

namespace Restyle.Main

def environment : IO (List (String × String)) :=
  Settings.fieldNames.filterMapM fun name => do
    let spelled := (Settings.variableHead ++ name).map Char.toUpper
    return (← IO.getEnv spelled).map (spelled, ·)

def spelling (place : FileTree.Place) : String :=
  Path.render ⟨"/", place⟩

def entryOf (place : FileTree.Place) : IO.FS.DirEntry :=
  ⟨spelling place.dropLast, place.getLastD "."⟩

/-- The tree with a file or with a directory and all that is in it. -/
partial def load (tree : FileTree) (place : FileTree.Place) : IO FileTree := do
  let path := (entryOf place).path
  if ← path.isDir then
    let entries ← path.readDir
    entries.foldlM (fun tree entry => load tree (place ++ [entry.fileName]))
      (tree.withDirectory place)
  else if ← path.pathExists then
    return tree.withFile place (← IO.FS.readBinFile path)
  else return tree

def loadDirectory (tree : FileTree) (place : FileTree.Place) : IO FileTree := do
  if ← (entryOf place).path.isDir then return tree.withDirectory place
  return tree

/-- The tree with what a path leads to and the directories on the way. -/
def loadPath (tree : FileTree) (path : Path) : IO FileTree := do
  let place := path.parts.foldl FileTree.step (tree.origin path)
  load (← (FileTree.above place).foldlM loadDirectory tree) place

def pathsOf (settings : Settings) (arguments : List String) : List Path :=
  match CommandLine.Request.ofArguments arguments with
  | .run options =>
    options.input.toList ++
      [options.output, options.output.join (Path.ofString (options.subdirectory.getD "."))] ++
      settings.manifest?.toList
  | _ => []

/-- Makes the directories and writes the files that are new. -/
def store (before after : FileTree) : IO Unit := do
  for place in after.directories do
    if !before.hasDirectory place then IO.FS.createDirAll (entryOf place).path
  for (place, bytes) in after.files do
    if (before.contents? place).map (·.data) ≠ some bytes.data then
      IO.FS.writeBinFile (entryOf place).path bytes

/-- What is said of an ending that has no exit code of its own. -/
def complaint? : CommandLine.Ending → Option String
  | .exit _ => none
  | .refused => some CommandLine.helpText
  | .nameless => some "Error: a directory has no name"
  | .broken _ => some "Error: the run cannot go on"

def execute (settings : Settings) (arguments : List String) : IO UInt32 := do
  let current := (Path.ofString (← IO.currentDir).toString).parts
  let tree ← (pathsOf settings arguments).foldlM loadPath (FileTree.ofCurrent current)
  let outcome := CommandLine.execute { settings } tree arguments
  store tree outcome.world.tree
  IO.print outcome.output
  for line in outcome.log ++ outcome.world.complaints ++ (complaint? outcome.ending).toList do
    IO.eprintln line
  return UInt32.ofNat outcome.ending.code

end Restyle.Main

/-- Expands the macros of all modules in a directory. -/
def main (arguments : List String) : IO UInt32 := do
  match Restyle.Settings.ofEnvironment (← Restyle.Main.environment) [] with
  | .ok settings => Restyle.Main.execute settings arguments
  | .error _ =>
    IO.eprintln "Error: the environment does not fit the settings"
    return 1
