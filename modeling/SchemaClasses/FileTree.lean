import SchemaClasses.Location
import SchemaClasses.Ordered

/-!
# File trees

A snapshot of directories and text files, with the directory that relative paths start from. Paths
are followed one component at a time: every component but the last must be a directory, also where a
dot, a double dot or nothing follows it, so `file/.` leads nowhere and `a/../b` needs `a`. Nothing
here reads or writes a disk.
-/

namespace SchemaClasses

/-- What a path can lead to. A file has no text when its bytes are not UTF-8. -/
inductive FileNode where
  | directory
  | file (text : Option String)
  deriving DecidableEq, Repr

/-- Why a path leads nowhere, or why nothing can be made there. -/
inductive PathFault where
  | missing
  | notDirectory
  | badName
  | occupied
  deriving DecidableEq, Repr

/-- Nodes by their components from the root, which is always a directory. -/
structure FileTree where
  workingDirectory : List String
  nodes : List (List String × FileNode)

namespace FileTree

def rootedAt (workingDirectory : List String) : FileTree :=
  let above := (List.range workingDirectory.length).map fun n => workingDirectory.take (n + 1)
  ⟨workingDirectory, above.map fun path => (path, .directory)⟩

def node? (tree : FileTree) (place : List String) : Option FileNode :=
  if place.isEmpty then some .directory else Ordered.get? tree.nodes place

/-- The names that a directory can hold. -/
def isName (name : String) : Bool :=
  name.utf8ByteSize ≤ 255 && !name.toList.contains '\x00'

/-- The place one component further. -/
def follow (tree : FileTree) (place : List String) (component : String) :
    Except PathFault (List String) :=
  match tree.node? place with
  | none => .error .missing
  | some (.file _) => .error .notDirectory
  | some .directory =>
    if component = "" ∨ component = "." then .ok place
    else if component = ".." then .ok place.dropLast
    else if !isName component then .error .badName
    else if (tree.node? (place ++ [component])).isSome then .ok (place ++ [component])
    else .error .missing

def startOf (tree : FileTree) (path : String) : List String :=
  if Location.isAbsolute path then [] else tree.workingDirectory

def followAll (tree : FileTree) (path : String) (parts : List String) :
    Except PathFault (List String) :=
  parts.foldlM tree.follow (tree.startOf path)

/-- Whether a path is short enough to be handed over as a whole. -/
def isShort (path : String) : Bool := path.utf8ByteSize < 4096

/-- The place that a path leads to. -/
def place (tree : FileTree) (path : String) : Except PathFault (List String) :=
  if path = "" then .error .missing
  else if !isShort path then .error .badName
  else tree.followAll path (Location.components path)

/-- The one absolute spelling of a place. -/
def spell (place : List String) : String := "/" ++ "/".intercalate place

/-- The place one component further, if its spelling is short. -/
def followShort (tree : FileTree) (place : List String) (component : String) :
    Except PathFault (List String) := do
  let next ← tree.follow place component
  if isShort (spell next) then return next else throw .badName

/-- The canonical path of what a path leads to. The path is followed one component at a time, so
only the spellings of the places on the way need to be short, and not the path. -/
def canonical? (tree : FileTree) (path : String) : Option String :=
  if path = "" then none
  else
    match (Location.components path).foldlM tree.followShort (tree.startOf path) with
    | .ok place => some (spell place)
    | .error _ => none

def readText? (tree : FileTree) (path : String) : Option String :=
  match tree.place path with
  | .error _ => none
  | .ok place =>
    match tree.node? place with
    | some (.file text) => text
    | _ => none

def isDirectory (tree : FileTree) (path : String) : Bool :=
  match tree.place path with
  | .error _ => false
  | .ok place => tree.node? place = some .directory

def put (tree : FileTree) (place : List String) (node : FileNode) : FileTree :=
  { tree with nodes := Ordered.put tree.nodes place node }

/-- The place of a new or old node for the last component of a path. -/
def target (tree : FileTree) (path : String) : Except PathFault (List String) := do
  if path = "" then throw .missing
  if !isShort path then throw .badName
  let parts := Location.components path
  let name := parts.getLastD ""
  let directory ← tree.followAll path parts.dropLast
  match tree.node? directory with
  | some .directory =>
    if name = "" ∨ name = "." ∨ name = ".." then throw .occupied
    else if !isName name then throw .badName
    else return directory ++ [name]
  | some (.file _) => throw .notDirectory
  | none => throw .missing

def makeDirectory (tree : FileTree) (path : String) : Except PathFault FileTree := do
  let bare := String.ofList (path.toList.reverse.dropWhile (· == '/')).reverse
  if !isShort path then throw .badName
  if bare = "" ∧ path ≠ "" then throw .occupied
  let place ← tree.target bare
  if (tree.node? place).isSome then throw .occupied
  return tree.put place .directory

/-- Makes a directory and, up to `limit` of them, those missing above it. -/
def makeDirectoriesUpTo : Nat → FileTree → String → Option FileTree
  | limit, tree, path =>
    if path = "" then some tree
    else
      match tree.makeDirectory path with
      | .ok made => some made
      | .error .missing =>
        match limit, Location.parent? path with
        | limit + 1, some parent => do
          let tree ← makeDirectoriesUpTo limit tree parent
          match tree.makeDirectory path with
          | .ok made => some made
          | .error _ => if tree.isDirectory path then some tree else none
        | _, _ => none
      | .error _ => if tree.isDirectory path then some tree else none

def makeDirectories (tree : FileTree) (path : String) : Option FileTree :=
  makeDirectoriesUpTo path.length tree path

/-- Writes a file in an existing directory, in place of the file that is there. -/
def write (tree : FileTree) (path : String) (text : Option String) : Option FileTree :=
  match tree.target path with
  | .error _ => none
  | .ok place =>
    if tree.node? place = some .directory then none else some (tree.put place (.file text))

end FileTree

end SchemaClasses
