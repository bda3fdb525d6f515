import SchemaClasses.ClassTable.Linking
import SchemaClasses.Extension.Grafting
import SchemaClasses.Settings.Reader

/-!
# Runs

A run resolves the extensions first and then the root schema, and links the table. It fails only
when the root schema has no class. `workOrder` lists the classes to generate code for: the first
given, and then depth first what each refers to.
-/

namespace SchemaClasses

/-- Why a run stops. -/
inductive Fault where
  | schemaNotFound (name : String) (tried : String)
  /-- A settings file has no settings in it. -/
  | badSettings (path : String)
  | unreadable (path : String)
  | unwritable (path : String)
  deriving DecidableEq, Repr

def Fault.message : Fault → String
  | schemaNotFound name tried => "schema '" ++ name ++ "' not found (tried: " ++ tried ++ ")"
  | badSettings path => "invalid configuration in " ++ path
  | unreadable path => "failed to read " ++ path
  | unwritable path => "failed to write " ++ path

/-- What a run starts from. -/
structure RunOptions where
  schema : String
  searchPaths : List String
  extensionPaths : List String
  settings : Settings
  naming : Naming

/-- What a run ends with. -/
structure Run where
  root : ClassId
  extensionClasses : List ClassId
  table : ClassTable
  registry : Registry
  /-- How often two files had the same title. -/
  collisions : Nat

def Settings.load (files : FileTree) (path : String) : Except Fault Settings :=
  match files.readText? path with
  | none => .error (.unreadable path)
  | some text =>
    match Settings.read? text with
    | some settings => .ok settings
    | none => .error (.badSettings path)

namespace RunOptions

/-- The state before anything is resolved. -/
def start (options : RunOptions) (files : FileTree)
    (downloads : List (String × String) := []) : Draft :=
  .new (.new files options.searchPaths options.extensionPaths downloads) options.settings
    options.naming

/-- Resolves the extensions and the root schema. -/
def resolveAll (options : RunOptions) (depth : Nat) : Drafting (Except Fault Run) := do
  let grafted ← Drafting.graft depth options.settings.extensions
  match ← Drafting.resolve depth options.schema with
  | none =>
    return .error (.schemaNotFound options.schema (", ".intercalate options.searchPaths))
  | some root =>
    let collisions := (← get).catalog.collisions.length
    let table ← Drafting.finish depth
    Drafting.tell [.notice (.resolved table.length options.schema)]
    return .ok {
      root := root
      extensionClasses := grafted.classes
      table := table
      registry := grafted.registry
      collisions := collisions }

end RunOptions

namespace ClassTable

/-- The classes on the stack and all they refer to, without those whose documents are in `visited`.
At most `limit` classes are taken from the stack. -/
def visit (table : ClassTable) : Nat → List String → List ClassId → List ClassId
  | 0, _, _ => []
  | _, _, [] => []
  | limit + 1, visited, id :: stack =>
    match table.get? id with
    | none => table.visit limit visited stack
    | some c =>
      if c.source ∈ visited then table.visit limit visited stack
      else id :: table.visit limit (c.source :: visited) (c.references ++ stack)

/-- The classes to generate code for, from the given ones on. Every class puts its references on the
stack once, which bounds how many are taken from it. -/
def workOrder (table : ClassTable) (seeds : List ClassId) : List ClassId :=
  table.visit (seeds.length + (table.flatMap (·.references)).length) [] seeds

end ClassTable

def Run.workOrder (run : Run) : List ClassId :=
  run.table.workOrder (run.root :: run.extensionClasses)

end SchemaClasses
