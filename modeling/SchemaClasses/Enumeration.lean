import SchemaClasses.Documentation

/-!
# Enumerations

An enumeration is a type of named constants that are all integers or all strings. The values of such
a type are open: the constants only name the known ones. A string enumeration has a literal reader,
which tells the known strings apart.
-/

namespace SchemaClasses

/-- What the constants of an enumeration are. -/
inductive ConstantType where
  | integer
  | string
  deriving DecidableEq, Repr

namespace ConstantType

def runtimeType : ConstantType → String
  | .integer => "int32_t"
  | .string => "std::string"

def ofName? : String → Option ConstantType
  | "integer" => some .integer
  | "string" => some .string
  | _ => none

def name : ConstantType → String
  | .integer => "integer"
  | .string => "string"

end ConstantType

inductive Literal where
  | integer (value : Int)
  | string (value : String)
  deriving DecidableEq, Repr

namespace Literal

/-- A JSON value as a constant of a type. Integers have 64 bits and a sign. -/
def ofJson? (type : ConstantType) (value : Json) : Option Literal :=
  match type with
  | .integer => value.asInt64?.map .integer
  | .string => value.asString?.map .string

def toJson : Literal → Json
  | .integer value => .num (.int value)
  | .string value => .str value

end Literal

structure Variant where
  identifier : String
  value : Literal
  description : Option String
  deriving DecidableEq, Repr

structure Enumeration where
  name : String
  /-- The qualified name of the type or namespace around it. -/
  scope : String
  constantType : ConstantType
  variants : List Variant
  /-- The identifier of the constant that stands for an absent value. -/
  defaultIdentifier : Option String
  doc : Documentation
  deriving DecidableEq, Repr

/-- A string and the constant it is read as. -/
structure LiteralCase where
  literal : String
  identifier : String
  deriving DecidableEq, Repr

/-- The reader that maps strings to the constants of an enumeration. -/
structure LiteralReader where
  handlerName : String
  enumPath : String
  cases : List LiteralCase
  deriving DecidableEq, Repr

namespace Enumeration

def path (e : Enumeration) : String := e.scope ++ "::" ++ e.name

def qualifiedDefault? (e : Enumeration) : Option String :=
  e.defaultIdentifier.map fun identifier => e.path ++ "::" ++ identifier

/-- The case of a constant that is a string. -/
def caseOf? (v : Variant) : Option LiteralCase :=
  match v.value with
  | .string literal => some ⟨literal, v.identifier⟩
  | .integer _ => none

/-- The literal reader of a string enumeration; integers are read as such. -/
def reader? (e : Enumeration) : Option LiteralReader :=
  match e.constantType with
  | .integer => none
  | .string => some ⟨e.name ++ "JsonHandler", e.path, e.variants.filterMap caseOf?⟩

def variantJson (e : Enumeration) (v : Variant) : Json :=
  .obj [
    ("identifier", .str v.identifier),
    ("value", v.value.toJson),
    ("description", .ofString? v.description),
    ("value_type", .str e.constantType.name)]

def toJson (e : Enumeration) : Json :=
  .obj [
    ("name", .str e.name),
    ("scope", .str e.scope),
    ("valueType", .str e.constantType.name),
    ("variants", .arr (e.variants.map e.variantJson)),
    ("defaultIdentifier", .ofString? e.defaultIdentifier),
    ("doc", e.doc.toJson)]

end Enumeration

namespace LiteralReader

def toJson (reader : LiteralReader) : Json :=
  .obj [
    ("handlerName", .str reader.handlerName),
    ("enumPath", .str reader.enumPath),
    ("cases", .arr (reader.cases.map fun c =>
      .obj [("literal", .str c.literal), ("identifier", .str c.identifier)]))]

end LiteralReader

end SchemaClasses
