import SchemaClasses.Json.Basic
import SchemaClasses.Text.Blank

/-!
# Documentation of schemas

A schema has a brief description and a full one. The full one is kept without the copy of the brief
one that it may start with, so that the two can be read one after the other.
-/

namespace SchemaClasses

structure Documentation where
  brief : Option String
  full : Option String
  deriving DecidableEq, Repr

namespace Documentation

def empty : Documentation := ⟨none, none⟩

/-- A detailed description without the brief one at its start, and without the blanks around what is
left then. -/
def withoutBrief (brief : Option String) (detailed : String) : String :=
  match brief with
  | none => detailed
  | some brief =>
    if brief.toList.isPrefixOf detailed.toList then
      String.ofList (Text.trim (detailed.toList.drop brief.toList.length))
    else detailed

def ofFragment (fragment : Json) : Documentation :=
  let brief := fragment.string? "description"
  let full := (fragment.string? "gltf_detailedDescription").map (withoutBrief brief)
  ⟨brief, full.filter (· ≠ "")⟩

def isEmpty (doc : Documentation) : Bool := doc.brief.isNone && doc.full.isNone

/-- The documentation that says something, the first as a whole if it does. -/
def or (doc fallback : Documentation) : Documentation := if doc.isEmpty then fallback else doc

def toJson (doc : Documentation) : Json :=
  .obj [("brief", .ofString? doc.brief), ("full", .ofString? doc.full)]

end Documentation

end SchemaClasses
