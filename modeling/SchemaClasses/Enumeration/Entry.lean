import SchemaClasses.Enumeration
import SchemaClasses.Naming.Identifier
import SchemaClasses.Shape

/-!
# Enumerations in schemas

Constants are listed in one of three ways: as the items of `enum`, as alternatives of `anyOf` with
an `enum` each, or as alternatives of `anyOf` with a `const` each. All three give a list of entries.
An alternative without a constant, which leaves the enumeration open, is an entry without a literal:
it has a say in the type but names no constant.

`Enumeration.ofFragment` accepts entries that agree on one type and have a literal among them, and
otherwise names the fault.
-/

namespace SchemaClasses

/-- Why entries make no enumeration. -/
inductive EnumerationFault where
  /-- A value or a declared type is neither integer nor string. -/
  | foreignValue
  | mixedTypes
  /-- No entry says anything about the type. -/
  | noType
  /-- A literal is not of the agreed type. -/
  | mismatch (literal : Json)
  /-- No entry has a literal. -/
  | noConstant

namespace Enumeration

/-- One listed value. -/
structure Entry where
  literal : Option Json
  description : Option String
  declared : Option String

namespace Entry

/-- An alternative of `anyOf`. The type around it has precedence over its own where it lists its
constant with `enum`, and yields to it otherwise. -/
def ofAlternative (outerType : Option String) (alternative : Json) : Entry :=
  let description := alternative.string? "description"
  match alternative.array? "enum" with
  | some (value :: _) => ⟨some value, description, outerType.or (declaredType? alternative)⟩
  | _ => ⟨alternative.get? "const", description, (declaredType? alternative).or outerType⟩

/-- An item of `enum`, which describes itself if it is a string. -/
def ofItem (outerType : Option String) (value : Json) : Entry :=
  ⟨some value, value.asString?, outerType⟩

/-- The entries of a fragment; alternatives go before items. -/
def list (fragment : Json) : List Entry :=
  let outerType := declaredType? fragment
  match fragment.array? "anyOf" with
  | some alternatives => alternatives.map (ofAlternative outerType)
  | none => ((fragment.array? "enum").getD []).map (ofItem outerType)

/-- The type that a literal has by itself. -/
def literalType? : Json → Option ConstantType
  | .str _ => some .string
  | .num (.int _) => some .integer
  | _ => none

/-- What an entry says about the type, if anything. -/
def type (entry : Entry) : Except EnumerationFault (Option ConstantType) :=
  match entry.declared, entry.literal with
  | some declared, _ =>
    match ConstantType.ofName? declared with
    | some type => .ok (some type)
    | none => .error .foreignValue
  | none, some literal =>
    match literalType? literal with
    | some type => .ok (some type)
    | none => .error .foreignValue
  | none, none => .ok none

/-- The type agreed on so far, after one more entry. -/
def agree (agreed : Option ConstantType) (entry : Entry) :
    Except EnumerationFault (Option ConstantType) := do
  match agreed, ← entry.type with
  | agreed, none => return agreed
  | none, some type => return some type
  | some earlier, some type => if earlier = type then return agreed else throw .mixedTypes

/-- The identifier of a constant: strings name themselves, integers go by their description. -/
def identifier (entry : Entry) : Literal → String
  | .string value => Naming.identifier value
  | .integer value => Naming.identifier (entry.description.getD value.repr)

def variant (type : ConstantType) (entry : Entry) : Except EnumerationFault (Option Variant) :=
  match entry.literal with
  | none => .ok none
  | some literal =>
    match Literal.ofJson? type literal with
    | some value => .ok (some ⟨entry.identifier value, value, entry.description⟩)
    | none => .error (.mismatch literal)

end Entry

/-- The identifier of the first constant with the default value, or else of the first constant. -/
def defaultOf (type : ConstantType) (variants : List Variant) (default : Option Json) :
    Option String :=
  let chosen := (default.bind (Literal.ofJson? type)).bind fun value =>
    variants.find? (·.value = value)
  (chosen.or variants.head?).map (·.identifier)

/-- The enumeration that a fragment lists. The default may come from around the fragment. -/
def ofFragment (name scope : String) (fragment : Json) (default : Option Json) :
    Except EnumerationFault Enumeration := do
  let entries := Entry.list fragment
  match ← entries.foldlM Entry.agree none with
  | none => throw .noType
  | some type =>
    let variants := (← entries.mapM (Entry.variant type)).filterMap id
    if variants.isEmpty then throw .noConstant
    else return {
      name := name
      scope := scope
      constantType := type
      variants := variants
      defaultIdentifier := defaultOf type variants default
      doc := .ofFragment fragment }

end Enumeration

end SchemaClasses
