import SchemaClasses.View

/-!
# Output files

The files that a run writes: for every class in work order its model view and, for an object, the
views of its handler and its writer; then the extension registry. The handler views may be gathered
in one file. Files are written in order, and the first that cannot be written ends the run.
-/

namespace SchemaClasses

/-- Where the views go. -/
structure OutputOptions where
  modelDirectory : String
  readerDirectory : String
  writerDirectory : String
  /-- Whether one file holds all handler views. -/
  oneHandlerFile : Bool

/-- A file with one value in it. -/
structure OutputFile where
  path : String
  content : Json

/-- What a run has done. -/
structure Statistics where
  classesGenerated : Nat
  enumsGenerated : Nat
  extensionsAttached : Nat
  classesSkipped : Nat
  collisions : Nat
  deriving DecidableEq, Repr

namespace OutputFile

def text (file : OutputFile) : String := file.content.pretty ++ "\n"

/-- Makes the directories above a path. -/
def makeParent (files : FileTree) (path : String) : Except Fault FileTree :=
  match Location.parent? path with
  | none => .ok files
  | some directory =>
    match files.makeDirectories directory with
    | some files => .ok files
    | none => .error (.unwritable directory)

/-- Writes the file and makes the directories above it. -/
def write (files : FileTree) (file : OutputFile) : Except Fault FileTree := do
  let files ← makeParent files file.path
  match files.write file.path (some file.text) with
  | some files => return files
  | none => throw (.unwritable file.path)

/-- Writes files in order up to the first that cannot be written, and gives the fault of that one.
-/
def writeAll (files : FileTree) : List OutputFile → FileTree × Option Fault
  | [] => (files, none)
  | file :: rest =>
    match file.write files with
    | .ok files => writeAll files rest
    | .error fault => (files, some fault)

end OutputFile

/-- Whether there is code to generate for a class. -/
def ClassDescriptor.isGenerated (c : ClassDescriptor) : Bool :=
  !c.isExternal &&
    match c.kind with
    | .object _ => true
    | .enumeration _ => true
    | _ => false

namespace Run

def generated (run : Run) : List ClassDescriptor :=
  (run.workOrder.filterMap run.table.get?).filter (·.isGenerated)

/-- The files of one class. -/
def classFiles (run : Run) (naming : Naming) (options : OutputOptions) (c : ClassDescriptor) :
    List OutputFile :=
  let name := Naming.bare c.typeName
  let modelFile : OutputFile :=
    ⟨Location.join options.modelDirectory (name ++ ".json"), View.model run.table c⟩
  match c.object? with
  | none => [modelFile]
  | some object =>
    let readerFile : OutputFile :=
      ⟨Location.join options.readerDirectory (name ++ "JsonHandler.json"),
        View.reader run.registry c object⟩
    let writerFile : OutputFile :=
      ⟨Location.join options.writerDirectory (name ++ "JsonWriter.json"),
        View.writer naming run.registry c object⟩
    if options.oneHandlerFile then [modelFile, writerFile]
    else [modelFile, readerFile, writerFile]

def handlerViews (run : Run) : List Json :=
  run.generated.filterMap fun c => c.object?.map (View.reader run.registry c)

/-- The files of a run, in the order in which they are written. -/
def files (run : Run) (naming : Naming) (options : OutputOptions) : List OutputFile :=
  let handlers : List OutputFile :=
    if options.oneHandlerFile then
      [⟨Location.join options.readerDirectory "GeneratedJsonHandlers.json",
        .arr run.handlerViews⟩]
    else []
  run.generated.flatMap (run.classFiles naming options) ++ handlers ++
    [⟨Location.join options.readerDirectory "extensions.json", run.registry.toJson⟩]

/-- How many classes of which kind were generated. -/
def statistics (run : Run) : Statistics :=
  let objects := run.generated.countP (·.object?.isSome)
  { classesGenerated := objects
    enumsGenerated := run.generated.length - objects
    extensionsAttached := run.registry.size
    classesSkipped := run.workOrder.length - run.generated.length
    collisions := run.collisions }

end Run

namespace RunOptions

/-- Resolves all schemas and writes the files of the run. -/
def generate (options : RunOptions) (depth : Nat) (output : OutputOptions) :
    Drafting (Except Fault Statistics) := do
  match ← options.resolveAll depth with
  | .error fault => return .error fault
  | .ok run =>
    let draft ← get
    let (files, fault) :=
      OutputFile.writeAll draft.catalog.files (run.files options.naming output)
    set { draft with catalog := { draft.catalog with files := files } }
    match fault with
    | some fault => return .error fault
    | none => return .ok run.statistics

end RunOptions

end SchemaClasses
