import SchemaClasses.Descriptor
import SchemaClasses.Descriptor.Literal
import SchemaClasses.Naming
import SchemaClasses.Shape

/-!
# Building descriptors

One function per kind of type gives the facets that generated code needs: the type names, the
headers in the order in which they are found, and the default.
-/

namespace SchemaClasses.Descriptor

/-- The member type that holds an optional or a certain value. -/
def wrapped (type : String) (isOptional : Bool) : String :=
  if isOptional then "std::optional<" ++ type ++ ">" else type

def withOptional (headers : List String) (isOptional : Bool) : List String :=
  if isOptional then headers ++ ["<optional>"] else headers

def integerHandler : String := "<CesiumJsonReader/IntegerJsonHandler.h>"

/-- A reference by index. It is never optional: `-1` stands for its absence. -/
def index : Descriptor :=
  leaf .index {
    modelType := "int32_t"
    valueType := "int32_t"
    modelHeaders := ["<cstdint>"]
    readerType := "CesiumJsonReader::IntegerJsonHandler<int32_t>"
    readerHeaders := [integerHandler]
    isOptional := false
    defaultValue := some "-1"
    doc := .empty }

def scalarLeaf : ScalarType → Leaf
  | .integer => .integer
  | .number => .double
  | .boolean => .bool
  | .string => .string

def scalarValueType : ScalarType → String
  | .integer => "int64_t"
  | .number => "double"
  | .boolean => "bool"
  | .string => "std::string"

def scalarHeaders : ScalarType → List String
  | .integer => ["<cstdint>"]
  | .number => []
  | .boolean => []
  | .string => ["<string>"]

def scalarReader : ScalarType → String
  | .integer => "CesiumJsonReader::IntegerJsonHandler<int64_t>"
  | .number => "CesiumJsonReader::DoubleJsonHandler"
  | .boolean => "CesiumJsonReader::BoolJsonHandler"
  | .string => "CesiumJsonReader::StringJsonHandler"

def scalarReaderHeader : ScalarType → String
  | .integer => integerHandler
  | .number => "<CesiumJsonReader/DoubleJsonHandler.h>"
  | .boolean => "<CesiumJsonReader/BoolJsonHandler.h>"
  | .string => "<CesiumJsonReader/StringJsonHandler.h>"

def scalar (type : ScalarType) (isOptional : Bool) (default : Option Json) : Descriptor :=
  leaf (scalarLeaf type) {
    modelType := wrapped (scalarValueType type) isOptional
    valueType := scalarValueType type
    modelHeaders := withOptional (scalarHeaders type) isOptional
    readerType := scalarReader type
    readerHeaders := [scalarReaderHeader type]
    isOptional := isOptional
    defaultValue := default.bind Json.literal?
    doc := .empty }

/-- Any JSON value, for whatever is not described more precisely. -/
def anyJson (isOptional : Bool) : Descriptor :=
  leaf .json {
    modelType := wrapped Naming.jsonValue isOptional
    valueType := Naming.jsonValue
    modelHeaders := withOptional ["<CesiumUtility/JsonValue.h>"] isOptional
    readerType := "CesiumJsonReader::JsonObjectJsonHandler"
    readerHeaders := ["<CesiumJsonReader/JsonObjectJsonHandler.h>"]
    isOptional := isOptional
    defaultValue := none
    doc := .empty }

def enumerationHeader : ConstantType → String
  | .integer => "<cstdint>"
  | .string => "<string>"

/-- The reader of a value of an enumeration: its own for strings, the plain one for integers. -/
def enumerationReader (e : Enumeration) : String :=
  match e.constantType with
  | .string => e.name ++ "JsonHandler"
  | .integer => "CesiumJsonReader::IntegerJsonHandler<int32_t>"

def enumerationReaderHeader : ConstantType → String
  | .string => "<CesiumJsonReader/StringJsonHandler.h>"
  | .integer => integerHandler

/-- A value of an enumeration that is declared in the class `owner`. -/
def enumeration (naming : Naming) (owner : String) (e : Enumeration) (isOptional : Bool) :
    Descriptor :=
  let valueType := e.constantType.runtimeType
  leaf (.enumeration e) {
    modelType := wrapped valueType isOptional
    valueType := valueType
    modelHeaders := withOptional [enumerationHeader e.constantType] isOptional
    readerType := enumerationReader e
    readerHeaders :=
      Ordered.insert [naming.header owner] (enumerationReaderHeader e.constantType)
    isOptional := isOptional
    defaultValue :=
      if isOptional then none
      else e.defaultIdentifier.map fun identifier => e.name ++ "::" ++ identifier
    doc := .empty }

/-- Any number of values of one type. -/
def arrayOf (item : Descriptor) (default : Option Json) : Descriptor :=
  let modelType := "std::vector<" ++ item.facets.modelType ++ ">"
  array item {
    modelType := modelType
    valueType := modelType
    modelHeaders := Ordered.union ["<vector>"] item.facets.modelHeaders
    readerType :=
      "CesiumJsonReader::ArrayJsonHandler<" ++ item.facets.modelType ++ ", " ++
        item.facets.readerType ++ ">"
    readerHeaders :=
      Ordered.union ["<CesiumJsonReader/ArrayJsonHandler.h>"] item.facets.readerHeaders
    isOptional := false
    defaultValue := default.bind Json.literal?
    doc := .empty }

/-- Values of one type by name. -/
def dictionaryOf (value : Descriptor) : Descriptor :=
  let modelType := "std::unordered_map<std::string, " ++ value.facets.modelType ++ ">"
  dictionary value {
    modelType := modelType
    valueType := modelType
    modelHeaders := Ordered.union ["<unordered_map>", "<string>"] value.facets.modelHeaders
    readerType :=
      "CesiumJsonReader::DictionaryJsonHandler<" ++ value.facets.modelType ++ ", " ++
        value.facets.readerType ++ ">"
    readerHeaders :=
      Ordered.union ["<CesiumJsonReader/DictionaryJsonHandler.h>"] value.facets.readerHeaders
    isOptional := false
    defaultValue := none
    doc := .empty }

/-- The facets of a class that is held by value. -/
def classFacets (naming : Naming) (className : String) (isOptional : Bool) : Facets :=
  let valueType := naming.qualified className
  { modelType := wrapped valueType isOptional
    valueType := valueType
    modelHeaders :=
      if isOptional then Ordered.insert [naming.header className] "<optional>"
      else [naming.header className]
    readerType := naming.handler className
    readerHeaders := [naming.handlerHeader className]
    isOptional := isOptional
    defaultValue := none
    doc := .empty }

def inlineObject (naming : Naming) (target : ClassId) (className : String) (isOptional : Bool) :
    Descriptor :=
  leaf (.inlineObject target className) (classFacets naming className isOptional)

/-- A class that other schemas may refer to as well. An asset is never optional, because its pointer
may be empty. -/
def reference (naming : Naming) (target : ClassId) (className : String)
    (isAsset isOptional : Bool) : Descriptor :=
  if isAsset then
    let facets := classFacets naming className false
    leaf (.reference target className true) { facets with
      modelType := "CesiumUtility::IntrusivePointer<" ++ facets.valueType ++ ">"
      modelHeaders := Ordered.insert facets.modelHeaders "<CesiumUtility/IntrusivePointer.h>" }
  else leaf (.reference target className false) (classFacets naming className isOptional)

end SchemaClasses.Descriptor
