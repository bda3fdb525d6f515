import SchemaClasses.Output

/-!
# The command line

`generate` writes the views of all classes and `refs` prints the classes that one of them needs.
Arguments are read from left to right, and the first that is wrong or asks for help or the version
ends the reading. An option takes its value after `=` or from the next argument, which must not look
like an option. Running a command depends on nothing but its arguments and the files.
-/

namespace SchemaClasses.CommandLine

structure OptionSpec where
  name : String
  /-- A letter to give it with. -/
  letter : Option Char := none
  takesValue : Bool := true
  /-- Whether it may be given more than once. -/
  isRepeatable : Bool := false
  /-- Whether its value is a path, which is never empty. -/
  isPath : Bool := false

/-- Why there is nothing to run. -/
inductive Stop where
  | usage
  | help
  | version
  deriving DecidableEq, Repr

/-- The options given so far, in order, with their values. -/
abbrev Given := List (String × String)

def values (given : Given) (name : String) : List String :=
  (given.filter (·.1 = name)).map Prod.snd

def value? (given : Given) (name : String) : Option String := (values given name).head?

def isGiven (given : Given) (name : String) : Bool := (value? given name).isSome

def accept (given : Given) (spec : OptionSpec) (value : String) : Except Stop Given :=
  if isGiven given spec.name && !spec.isRepeatable then .error .usage
  else if spec.isPath && value = "" then .error .usage
  else .ok (given ++ [(spec.name, value)])

/-- Reads letters after one dash. -/
def readLetters (specs : List OptionSpec) (given : Given) : List Char → Except Stop Given
  | [] => .ok given
  | letter :: rest =>
    match specs.find? (·.letter = some letter) with
    | some spec => do readLetters specs (← accept given spec "") rest
    | none => .error (if letter = 'h' then .help else .usage)

def isPlain (argument : String) : Bool :=
  argument.toList.head? ≠ some '-' || argument = "-"

/-- A long option's name and the value attached to it. -/
def splitLong (argument : String) : String × Option String :=
  match Text.cutFirst (· == '=') (argument.toList.drop 2) with
  | some (name, value) => (String.ofList name, some (String.ofList value))
  | none => (String.ofList (argument.toList.drop 2), none)

def unknownLong (name : String) (attached : Option String) : Stop :=
  if name = "help" && attached.isNone then .help else .usage

def readOptions (specs : List OptionSpec) (given : Given) : List String → Except Stop Given
  | [] => .ok given
  | argument :: rest =>
    if argument = "--" then
      if rest.isEmpty then .ok given else .error .usage
    else if "--".toList.isPrefixOf argument.toList then
      let (name, attached) := splitLong argument
      match specs.find? (·.name = name), attached with
      | none, attached => .error (unknownLong name attached)
      | some spec, some value =>
        if spec.takesValue then do readOptions specs (← accept given spec value) rest
        else .error .usage
      | some spec, none =>
        if spec.takesValue then
          match rest with
          | [] => .error .usage
          | value :: rest =>
            if isPlain value then do readOptions specs (← accept given spec value) rest
            else .error .usage
        else do readOptions specs (← accept given spec "") rest
    else if isPlain argument then .error .usage
    else do readOptions specs (← readLetters specs given (argument.toList.drop 1)) rest

/-- The options of both commands. -/
def schemaOptions : List OptionSpec :=
  [{ name := "schema" },
   { name := "schema-path", isRepeatable := true },
   { name := "extension-path", isRepeatable := true },
   { name := "config", isPath := true },
   { name := "namespace" },
   { name := "reader-namespace" },
   { name := "writer-namespace" }]

def generateOptions : List OptionSpec :=
  schemaOptions ++
    [{ name := "output-model", isPath := true },
     { name := "output-reader", isPath := true },
     { name := "output-writer", isPath := true },
     { name := "one-handler-file", takesValue := false },
     { name := "quiet", letter := some 'q', takesValue := false }]

def refsOptions : List OptionSpec := schemaOptions ++ [{ name := "title" }]

/-- What both commands are told about the schemas. -/
structure SchemaArguments where
  schema : String
  schemaPaths : List String
  extensionPaths : List String
  settingsPath : Option String
  naming : Naming

inductive Command where
  | generate (schemas : SchemaArguments) (output : OutputOptions) (isQuiet : Bool)
  | refs (schemas : SchemaArguments) (title : Option String)

/-- The value of an option that must be given. -/
def need (given : Given) (name : String) : Except Stop String :=
  match value? given name with
  | some value => .ok value
  | none => .error .usage

/-- The path of the settings: the given one, or else that of the environment. -/
def settingsPath (given : Given) (environment : Option String) : Except Stop (Option String) :=
  match value? given "config", environment with
  | some path, _ => .ok (some path)
  | none, some path => if path = "" then .error .usage else .ok (some path)
  | none, none => .ok none

def namingOf (given : Given) : Naming :=
  let naming := Naming.ofNamespace ((value? given "namespace").getD "CesiumGltf")
  { naming with
    readerNamespace := (value? given "reader-namespace").getD naming.readerNamespace
    writerNamespace := (value? given "writer-namespace").getD naming.writerNamespace }

def schemaArguments (given : Given) (environment : Option String) :
    Except Stop SchemaArguments := do
  let settingsPath ← settingsPath given environment
  let schema ← need given "schema"
  let _ ← need given "schema-path"
  return {
    schema := schema
    schemaPaths := values given "schema-path"
    extensionPaths := values given "extension-path"
    settingsPath := settingsPath
    naming := namingOf given }

def outputOptions (given : Given) : Except Stop OutputOptions := do
  return {
    modelDirectory := ← need given "output-model"
    readerDirectory := ← need given "output-reader"
    writerDirectory := ← need given "output-writer"
    oneHandlerFile := isGiven given "one-handler-file" }

/-- Reads the arguments before a command. -/
def readFirst (argument : String) : Stop :=
  if argument = "--help" then .help
  else if argument = "--version" then .version
  else
    match argument.toList with
    | '-' :: 'h' :: _ => .help
    | '-' :: 'V' :: _ => .version
    | _ => .usage

def read (environment : Option String) : List String → Except Stop Command
  | "generate" :: arguments => do
    let given ← readOptions generateOptions [] arguments
    let schemas ← schemaArguments given environment
    return .generate schemas (← outputOptions given) (isGiven given "quiet")
  | "refs" :: arguments => do
    let given ← readOptions refsOptions [] arguments
    return .refs (← schemaArguments given environment) (value? given "title")
  | ["help"] => .error .help
  | ["help", command] =>
    .error (if command ∈ ["generate", "refs", "help"] then .help else .usage)
  | argument :: _ => .error (readFirst argument)
  | [] => .error .usage

/-- What running a command leaves behind. -/
structure Outcome where
  exitCode : Nat
  standardOutput : String
  standardError : String
  files : FileTree
  /-- The paths that led nowhere. -/
  missing : List String

def versionText : String := "gltf-schema-gen 0.1.0\n"

def usageText : String :=
  "Usage: gltf-schema-gen generate --schema <FILE> --schema-path <DIR>" ++
    " --output-model <DIR> --output-reader <DIR> --output-writer <DIR> [OPTIONS]\n" ++
    "Usage: gltf-schema-gen refs --schema <FILE> --schema-path <DIR> [--title <TITLE>]" ++
    " [OPTIONS]\n"

/-- The outcome when there is nothing to run. -/
def Stop.outcome (files : FileTree) (stop : Stop) : Outcome where
  exitCode := if stop = .usage then 2 else 0
  standardOutput :=
    match stop with
    | .usage => ""
    | .help => usageText
    | .version => versionText
  standardError := if stop = .usage then usageText else ""
  files := files
  missing := []

def SchemaArguments.runOptions (schemas : SchemaArguments) (settings : Settings) : RunOptions where
  schema := schemas.schema
  searchPaths := schemas.schemaPaths
  extensionPaths := schemas.extensionPaths
  settings := settings
  naming := schemas.naming

/-- The class that a query asks for, or the root class without one. -/
def queried (options : RunOptions) (run : Run) (title : Option String) :
    Except Fault ClassDescriptor :=
  match title with
  | some title =>
    match run.table.find? title with
    | some c => .ok c
    | none => .error (.schemaNotFound title "resolved schema titles and type names")
  | none =>
    match run.table.get? run.root with
    | some c => .ok c
    | none =>
      .error (.schemaNotFound options.schema (", ".intercalate options.searchPaths))

def refsText (table : ClassTable) (c : ClassDescriptor) : String :=
  String.join ((table.typeNames c.refClosure).map fun name => name ++ "\n")

def aboutSome (count : Nat) (message : Nat → Message) : List Message :=
  if count = 0 then [] else [message count]

/-- What is told about a run that has written its files. -/
def summary (s : Statistics) : List Message :=
  .notice (.generated s.classesGenerated s.enumsGenerated) ::
    aboutSome s.extensionsAttached (.notice <| .attachments ·) ++
    aboutSome s.classesSkipped (.notice <| .skipped ·) ++
    aboutSome s.collisions (.warning <| .titlesShared ·)

/-- What a command prints. -/
def Command.act (depth : Nat) (options : RunOptions) :
    Command → Drafting (Except Fault String)
  | .generate _ output _ => do
    match ← options.generate depth output with
    | .error fault => return .error fault
    | .ok statistics =>
      Drafting.tell (summary statistics)
      return .ok ""
  | .refs _ title => do
    match ← options.resolveAll depth with
    | .error fault => return .error fault
    | .ok run =>
      match queried options run title with
      | .error fault => return .error fault
      | .ok c => return .ok (refsText run.table c)

def Command.schemas : Command → SchemaArguments
  | .generate schemas _ _ => schemas
  | .refs schemas _ => schemas

def Command.isQuiet : Command → Bool
  | .generate _ _ isQuiet => isQuiet
  | .refs _ _ => false

def logText (isQuiet : Bool) (log : List Message) : String :=
  let shown := if isQuiet then (warningsOf log).map Message.warning else log
  String.join (shown.map Message.text)

def faultText (fault : Fault) : String := "error: " ++ fault.message ++ "\n"

/-- The outcome of a command that has come to its end. -/
def Outcome.ofDraft (isQuiet : Bool) (draft : Draft) (result : Except Fault String) : Outcome :=
  let told := logText isQuiet draft.catalog.log
  let done (exitCode : Nat) (output errors : String) : Outcome :=
    ⟨exitCode, output, errors, draft.catalog.files, draft.catalog.missing⟩
  match result with
  | .ok output => done 0 output told
  | .error fault => done 1 "" (told ++ faultText fault)

def Command.settings (files : FileTree) (command : Command) : Except Fault Settings :=
  match command.schemas.settingsPath with
  | some path => Settings.load files path
  | none => .ok .empty

/-- Runs a command, unless it needs more depth than there is. -/
def Command.run (depth : Nat) (files : FileTree) (command : Command) : Option Outcome :=
  match command.settings files with
  | .error fault =>
    some ⟨1, "", faultText fault, files, command.schemas.settingsPath.toList⟩
  | .ok settings => do
    let options := command.schemas.runOptions settings
    let (result, draft) ← (command.act depth options).run (options.start files)
    return .ofDraft command.isQuiet draft result

/-- Runs what the arguments ask for. -/
def run (depth : Nat) (files : FileTree) (environment : Option String) (arguments : List String) :
    Option Outcome :=
  match read environment arguments with
  | .error stop => some (stop.outcome files)
  | .ok command => command.run depth files

end SchemaClasses.CommandLine
