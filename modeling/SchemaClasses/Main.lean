import SchemaClasses.CommandLine

/-!
# The program

Everything is decided by `CommandLine.run` on a file tree in memory. This module reads the files
that a run asks for into that tree, repeats the run until it asks for nothing more, and writes what
the run has added to the tree.
-/

namespace SchemaClasses.Program

/-- How deep references may lead into each other. -/
def depthLimit : Nat := 1 <<< 60

def componentsOf (path : String) : List String :=
  (Location.components path).filter (· ≠ "")

/-- Adds what the disk has at a place to the tree. -/
def lookAt (tree : FileTree) (place : List String) : IO FileTree := do
  if (tree.node? place).isSome then return tree
  try
    let path ← IO.FS.realPath (FileTree.spell place)
    if ← path.isDir then return tree.put place .directory
    let bytes ← IO.FS.readBinFile path
    return tree.put place (.file (String.fromUTF8? bytes))
  catch _ => return tree

/-- Adds what the disk has on the way along a path to the tree. -/
def lookAlong (tree : FileTree) (path : String) : IO FileTree := do
  let mut tree := tree
  let mut place := if Location.isAbsolute path then [] else tree.workingDirectory
  for component in Location.components path do
    if component = ".." then place := place.dropLast
    else if component ≠ "" && component ≠ "." then
      place := place ++ [component]
      tree ← lookAt tree place
  return tree

/-- Runs the program until the tree has all files that the run asks for, at most `rounds` times. -/
def settle (environment : Option String) (arguments : List String) :
    (rounds : Nat) → FileTree → IO (Option CommandLine.Outcome)
  | 0, _ => return none
  | rounds + 1, tree => do
    match CommandLine.run depthLimit tree environment arguments with
    | none => return none
    | some outcome =>
      let mut larger := tree
      for path in outcome.missing do
        larger ← lookAlong larger path
      if larger.nodes.length = tree.nodes.length then return some outcome
      else settle environment arguments rounds larger

/-- Writes the files of the new tree that the old one does not have. -/
def writeChanges (old new : FileTree) : IO Unit := do
  for (place, node) in new.nodes do
    if old.node? place ≠ some node then
      match node with
      | .directory => IO.FS.createDirAll (FileTree.spell place)
      | .file text => IO.FS.writeFile (FileTree.spell place) (text.getD "")

/-- Runs the program and gives its exit code. -/
def run (arguments : List String) : IO UInt32 := do
  let environment ← IO.getEnv "GLTF_SCHEMA_GEN_CONFIG"
  let tree := FileTree.rootedAt (componentsOf (← IO.currentDir).toString)
  match ← settle environment arguments depthLimit tree with
  | none =>
    IO.eprintln "error: references lead too deep"
    return 1
  | some outcome =>
    try
      writeChanges tree outcome.files
    catch e =>
      IO.eprintln ("error: failed to write: " ++ e.toString)
      return 1
    IO.print outcome.standardOutput
    IO.eprint outcome.standardError
    return outcome.exitCode.toUInt32

end SchemaClasses.Program

def main (arguments : List String) : IO UInt32 := SchemaClasses.Program.run arguments
