import SchemaClasses.Enumeration
import SchemaClasses.Ordered

/-!
# Type descriptors

The type of a property: a tree of containers over one leaf, where every node carries what generated
code says about it. Classes are referred to by their place in the class table, so the types of
schemas that refer to each other in a circle are finite.
-/

namespace SchemaClasses

/-- The place of a class in the class table. -/
abbrev ClassId := Nat

/-- A type that is no container. -/
inductive Leaf where
  /-- A 64-bit integer. -/
  | integer
  /-- A reference by index, `-1` when absent. -/
  | index
  | double
  | bool
  | string
  | enumeration (type : Enumeration)
  /-- A generated class; an asset is held through a reference-counted pointer. -/
  | reference (target : ClassId) (className : String) (isAsset : Bool)
  /-- A class generated for an object that is declared at the property. -/
  | inlineObject (target : ClassId) (className : String)
  | json
  deriving DecidableEq, Repr

/-- What generated code says about a type. -/
structure Facets where
  /-- The type of the member, with its wrapper. -/
  modelType : String
  /-- The type without the wrapper. -/
  valueType : String
  modelHeaders : List String
  readerType : String
  readerHeaders : List String
  /-- Whether the wrapper is `std::optional`. -/
  isOptional : Bool
  defaultValue : Option String
  doc : Documentation
  deriving DecidableEq, Repr

inductive Descriptor where
  | leaf (kind : Leaf) (facets : Facets)
  | array (item : Descriptor) (facets : Facets)
  | dictionary (value : Descriptor) (facets : Facets)
  deriving DecidableEq, Repr

namespace Descriptor

def facets : Descriptor → Facets
  | leaf _ facets => facets
  | array _ facets => facets
  | dictionary _ facets => facets

def withFacets : Descriptor → Facets → Descriptor
  | leaf kind _, facets => leaf kind facets
  | array item _, facets => array item facets
  | dictionary value _, facets => dictionary value facets

/-- The descriptor with the documentation of an enclosing fragment, if that says something. -/
def documented (type : Descriptor) (outer : Documentation) : Descriptor :=
  type.withFacets { type.facets with doc := outer.or type.facets.doc }

/-- The leaf inside all containers. -/
def core : Descriptor → Leaf
  | leaf kind _ => kind
  | array item _ => item.core
  | dictionary value _ => value.core

/-- The classes that a type refers to; a type has one leaf, so there is at most one. -/
def classes (type : Descriptor) : List ClassId :=
  match type.core with
  | .reference target _ _ => [target]
  | .inlineObject target _ => [target]
  | _ => []

/-- The enumerations to declare beside a member of the type. -/
def localTypes (type : Descriptor) : List Enumeration :=
  match type.core with
  | .enumeration e => [e]
  | _ => []

/-- The default as writers spell it: the qualified constant of an enumeration. -/
def writerDefault? : Descriptor → Option String
  | leaf (.enumeration e) facets =>
    if facets.defaultValue.isSome then e.qualifiedDefault? else facets.defaultValue
  | type => type.facets.defaultValue

theorem facets_withFacets (type : Descriptor) (facets : Facets) :
    (type.withFacets facets).facets = facets := by
  cases type <;> rfl

theorem core_withFacets (type : Descriptor) (facets : Facets) :
    (type.withFacets facets).core = type.core := by
  cases type <;> rfl

end Descriptor

structure Property where
  /-- The name in JSON. -/
  name : String
  memberName : String
  type : Descriptor
  isRequired : Bool
  deriving DecidableEq, Repr

namespace Property

/-- Whether the member may be left out: it is not required and has no default. -/
def isOmittable (p : Property) : Bool := !p.isRequired && p.type.facets.defaultValue.isNone

/-- Whether the member is a reference by index that must be there. -/
def isRequiredIndex (p : Property) : Bool :=
  match p.type with
  | .leaf .index _ => p.isRequired
  | _ => false

end Property

end SchemaClasses
