import SchemaClasses.Json.Basic

/-!
# Shapes of schemas

A schema is read in two positions. `PropertyShape.of` says how the type of a property is found from
its fragment, and `SchemaShape.of` which kind of class a whole schema becomes. In both the first
shape that fits is taken, but they look for the keywords in different orders.
-/

namespace SchemaClasses

/-- The types of single values. -/
inductive ScalarType where
  | integer
  | number
  | boolean
  | string
  deriving DecidableEq, Repr

def ScalarType.ofName? : String → Option ScalarType
  | "integer" => some .integer
  | "number" => some .number
  | "boolean" => some .boolean
  | "string" => some .string
  | _ => none

/-- The `type` of a fragment, when it is one name. -/
def declaredType? (fragment : Json) : Option String := fragment.string? "type"

def hasEntries (fragment : Json) : Bool :=
  match fragment.array? "enum" with
  | some (_ :: _) => true
  | _ => false

/-- Whether a fragment lists constants. When it has `anyOf`, the first alternative decides. -/
def isEnumeration (fragment : Json) : Bool :=
  match fragment.array? "anyOf" with
  | some (first :: _) => (first.get? "const").isSome || hasEntries first
  | _ => hasEntries fragment

def allowsMembers (values : Json) : Bool := values.isObject || values.asBool? = some true

def onlyBase? (schema : Json) : Option Json := (schema.get? "allOf").bind Json.only?

inductive PropertyShape where
  /-- Nothing: the property is declared by a base class. -/
  | empty
  | enumeration
  | array (items : Option Json)
  | scalar (type : ScalarType)
  /-- An object with properties of its own. -/
  | inlineObject
  /-- An object with members of any name. -/
  | dictionary (values : Json)
  | reference (target : String)
  /-- One other fragment. -/
  | composite (inner : Json)
  | unsupported

/-- The shape of a fragment whose type is `object`, if that alone settles it. -/
def PropertyShape.ofObject? (fragment : Json) : Option PropertyShape :=
  if ((fragment.get? "properties").map Json.isObject).getD false then some .inlineObject
  else
    match fragment.get? "additionalProperties" with
    | some values => if allowsMembers values then some (.dictionary values) else none
    | none => none

/-- The shape that the type of a fragment settles. -/
def PropertyShape.ofType? (fragment : Json) : Option PropertyShape := do
  let type ← declaredType? fragment
  if type = "array" then return .array (fragment.get? "items")
  else if type = "object" then PropertyShape.ofObject? fragment
  else return .scalar (← ScalarType.ofName? type)

/-- The shape of a fragment that refers to another. -/
def PropertyShape.ofLink (fragment : Json) : PropertyShape :=
  match fragment.string? "$ref" with
  | some target => .reference target
  | none =>
    match onlyBase? fragment with
    | some inner => .composite inner
    | none => .unsupported

/-- How the type of a property is found. -/
def PropertyShape.of (fragment : Json) : PropertyShape :=
  match fragment with
  | .obj [] => .empty
  | .obj _ =>
    if isEnumeration fragment then .enumeration
    else (PropertyShape.ofType? fragment).getD (PropertyShape.ofLink fragment)
  | _ => .unsupported

inductive SchemaShape where
  /-- Stands for the only entry of its `allOf`. -/
  | wrapper (inner : Json)
  /-- Stands for the target of its reference. -/
  | reference (target : String)
  | anyOf
  | enumeration
  | scalar (type : ScalarType)
  | object
  | array
  | unsupported

/-- The shape of a schema that stands for another. -/
def SchemaShape.alias? (schema : Json) : Option SchemaShape :=
  let wrapped := if (schema.get? "properties").isSome then none else onlyBase? schema
  match wrapped with
  | some inner => some (.wrapper inner)
  | none => (schema.string? "$ref").map .reference

/-- The shape of a schema that stands for itself. -/
def SchemaShape.ofOwn (schema : Json) : SchemaShape :=
  let type := declaredType? schema
  if (schema.array? "anyOf").isSome then .anyOf
  else if (schema.array? "enum").isSome then .enumeration
  else
    match type.bind ScalarType.ofName? with
    | some kind => .scalar kind
    | none =>
      if type = some "object" || (schema.get? "$schema").isSome ||
          (schema.get? "properties").isSome then .object
      else if type = some "array" then .array
      else .unsupported

/-- Which kind of class a whole schema becomes. -/
def SchemaShape.of (schema : Json) : SchemaShape :=
  if schema.isObject then (SchemaShape.alias? schema).getD (SchemaShape.ofOwn schema)
  else .unsupported

/-- Whether a schema that is referred to becomes a class of its own. An object that only allows
members of any name is a container, not a class. -/
def isClassLike (schema : Json) : Bool :=
  match SchemaShape.of schema with
  | .object =>
    (schema.get? "properties").isSome ||
      !(((schema.get? "additionalProperties").map allowsMembers).getD false)
  | _ => false

end SchemaClasses
