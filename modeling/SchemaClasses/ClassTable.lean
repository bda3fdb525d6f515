import SchemaClasses.Descriptor
import SchemaClasses.Descriptor.Size

/-!
# The class table

The classes that schemas become, with all that they have from each other: bases and inherited names,
the headers they need, and what they refer to directly or through other classes.
-/

namespace SchemaClasses

/-- A type and the types it derives from, up to a root. -/
inductive Lineage where
  | root (name header : String)
  | derived (name header : String) (parent : Lineage)
  deriving DecidableEq, Repr

namespace Lineage

def name : Lineage → String
  | root name _ => name
  | derived name _ _ => name

def header : Lineage → String
  | root _ header => header
  | derived _ header _ => header

def chain : Lineage → List String
  | root name _ => [name]
  | derived name _ parent => name :: parent.chain

def headers : Lineage → List String
  | root _ header => [header]
  | derived _ header parent => Ordered.union [header] parent.headers

end Lineage

/-- The types that the model of a class and its reader derive from. -/
structure Bases where
  model : Lineage
  reader : Lineage
  deriving DecidableEq, Repr

/-- The types that every object derives from. -/
def Bases.root : Bases where
  model := .root "CesiumUtility::ExtensibleObject" "<CesiumUtility/ExtensibleObject.h>"
  reader := .root "CesiumJsonReader::ExtensibleObjectJsonHandler"
    "<CesiumJsonReader/ExtensibleObjectJsonHandler.h>"

structure ObjectClass where
  base : Option ClassId
  bases : Bases
  /-- The properties that no base declares. -/
  properties : List Property
  inheritedNames : List String
  modelHeaders : List String
  readerHeaders : List String
  deriving DecidableEq, Repr

namespace ObjectClass

def localTypes (object : ObjectClass) : List Enumeration :=
  object.properties.flatMap (·.type.localTypes)

def literalReaders (object : ObjectClass) : List LiteralReader :=
  object.localTypes.filterMap Enumeration.reader?

/-- The body of the function that counts the memory of a value. -/
def sizeStatements (object : ObjectClass) (qualifiedName : String) : List String :=
  let base := object.bases.model.name
  ("int64_t " ++ Descriptor.accumulator ++ " = 0;") ::
    Descriptor.accumulate ("int64_t(sizeof(" ++ qualifiedName ++ "))") ::
    Descriptor.accumulate (base ++ "::getSizeBytes() - int64_t(sizeof(" ++ base ++ "))") ::
    object.properties.flatMap (fun p => p.type.sizeStatements ("this->" ++ p.memberName) 0) ++
    ["return " ++ Descriptor.accumulator ++ ";"]

end ObjectClass

inductive ClassKind where
  | object (object : ObjectClass)
  | enumeration (type : Enumeration)
  | value (type : Descriptor)
  | unsupported
  deriving DecidableEq, Repr

structure ClassDescriptor where
  id : ClassId
  /-- The key of the document the class comes from. -/
  source : String
  title : Option String
  typeName : String
  qualifiedName : String
  /-- The JSON handler that reads the class. -/
  handler : String
  /-- Whether the class belongs to another namespace, where it exists already. -/
  isExternal : Bool
  /-- The name in JSON of a class that is an extension. -/
  extensionName : Option String
  doc : Documentation
  kind : ClassKind
  /-- The classes referred to directly: the base, then those of the properties. -/
  references : List ClassId
  /-- The classes and enumerations reachable through properties. -/
  subtypeClosure : List ClassId
  /-- The class and all objects it needs, dependencies first. -/
  refClosure : List ClassId
  deriving DecidableEq, Repr

namespace ClassDescriptor

def object? (c : ClassDescriptor) : Option ObjectClass :=
  match c.kind with
  | .object object => some object
  | _ => none

/-- The objects a class needs besides itself. -/
def dependencies (c : ClassDescriptor) : List ClassId := c.refClosure.filter (· ≠ c.id)

end ClassDescriptor

abbrev ClassTable := List ClassDescriptor

namespace ClassTable

def get? (table : ClassTable) (id : ClassId) : Option ClassDescriptor := table[id]?

def findByTitle? (table : ClassTable) (title : String) : Option ClassDescriptor :=
  table.find? fun c => c.title = some title

def findByName? (table : ClassTable) (typeName : String) : Option ClassDescriptor :=
  table.find? fun c => c.typeName = typeName

/-- The first class with a title, or else with a type name. -/
def find? (table : ClassTable) (query : String) : Option ClassDescriptor :=
  (table.findByTitle? query).or (table.findByName? query)

def typeNames (table : ClassTable) (ids : List ClassId) : List String :=
  ids.filterMap fun id => (table.get? id).map (·.typeName)

end ClassTable

end SchemaClasses
