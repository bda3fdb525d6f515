import SchemaClasses.Ordered
import SchemaClasses.Text.Cut

/-!
# Qualified names

The namespaces of the generated code, and what a type name becomes in them: its qualified name, the
headers that declare it, and the names of its JSON handler and writer. A type name that is qualified
keeps its namespace; any other belongs to the namespace of the models. Two spellings of one name
give the same results.
-/

namespace SchemaClasses

/-- The namespaces that code is generated in. -/
structure Naming where
  modelNamespace : String
  readerNamespace : String
  writerNamespace : String
  /-- Reader namespaces of other model namespaces. One that is not listed adds `Reader`. -/
  readerOverrides : List (String × String)

namespace Naming

/-- Names in a model namespace, with readers and writers in namespaces of the same stem. -/
def ofNamespace (modelNamespace : String) : Naming where
  modelNamespace := modelNamespace
  readerNamespace := modelNamespace ++ "Reader"
  writerNamespace := modelNamespace ++ "Writer"
  readerOverrides := [("CesiumUtility", "CesiumJsonReader")]

/-- A name's own namespace, which ends at the last `::`, and the bare name. -/
def split (name : String) : Option String × String :=
  match Text.cutLast [':', ':'] name.toList with
  | some (own, bare) => (some (String.ofList own), String.ofList bare)
  | none => (none, name)

def bare (name : String) : String := (split name).2

def jsonValue : String := "CesiumUtility::JsonValue"

def namespaceOf (naming : Naming) (name : String) : String :=
  (split name).1.getD naming.modelNamespace

def isForeign (naming : Naming) (name : String) : Bool :=
  naming.namespaceOf name ≠ naming.modelNamespace

def qualified (naming : Naming) (name : String) : String :=
  naming.namespaceOf name ++ "::" ++ bare name

def header (naming : Naming) (name : String) : String :=
  "<" ++ naming.namespaceOf name ++ "/" ++ bare name ++ ".h>"

def readersOf (naming : Naming) (modelNamespace : String) : String :=
  if modelNamespace = naming.modelNamespace then naming.readerNamespace
  else (Ordered.get? naming.readerOverrides modelNamespace).getD (modelNamespace ++ "Reader")

def readerNamespaceOf (naming : Naming) (name : String) : String :=
  naming.readersOf (naming.namespaceOf name)

def handler (naming : Naming) (name : String) : String :=
  naming.readerNamespaceOf name ++ "::" ++ bare name ++ "JsonHandler"

def readerHeader (naming : Naming) (name : String) : String :=
  "<" ++ naming.readerNamespaceOf name ++ "/" ++ bare name ++ "Reader.h>"

/-- The header that declares a type's JSON handler: private and quoted next to the readers that are
generated, public for the types of other namespaces. -/
def handlerHeader (naming : Naming) (name : String) : String :=
  if naming.isForeign name then
    "<" ++ naming.readerNamespaceOf name ++ "/" ++ bare name ++ "JsonHandler.h>"
  else "\"" ++ bare name ++ "JsonHandler.h\""

def writer (naming : Naming) (name : String) : String :=
  naming.writerNamespace ++ "::" ++ bare name ++ "JsonWriter"

end Naming

end SchemaClasses
