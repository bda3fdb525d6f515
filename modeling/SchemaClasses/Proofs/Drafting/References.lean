import SchemaClasses.Proofs.Drafting.Growth
import SchemaClasses.Proofs.Shape

/-!
# Classes that types refer to

A type refers to at most one class, at its leaf. The class of a reference has the place of the
document referred to, which becomes a class of its own; the class of an inline object has the place
of the document that the inline object stands for. Both stay true while the draft grows.
-/

namespace SchemaClasses

/-- The class that a leaf refers to. -/
def Leaf.target? : Leaf → Option ClassId
  | reference target _ _ => some target
  | inlineObject target _ => some target
  | _ => none

namespace Descriptor

@[simp] theorem core_documented (type : Descriptor) (outer : Documentation) :
    (type.documented outer).core = type.core :=
  type.core_withFacets _

theorem classes_eq (type : Descriptor) : type.classes = type.core.target?.toList := by
  unfold classes
  cases type.core <;> rfl

theorem mem_classes {type : Descriptor} {id : ClassId} :
    id ∈ type.classes ↔ type.core.target? = some id := by
  rw [classes_eq, Option.mem_toList]

@[simp] theorem core_arrayOf (item : Descriptor) (default : Option Json) :
    (arrayOf item default).core = item.core := rfl

@[simp] theorem core_dictionaryOf (value : Descriptor) :
    (dictionaryOf value).core = value.core := rfl

@[simp] theorem core_reference (naming : Naming) (target : ClassId) (className : String)
    (isAsset isOptional : Bool) :
    (reference naming target className isAsset isOptional).core =
      .reference target className isAsset := by
  unfold reference
  split
  · rename_i h
    simp [core, h]
  · rename_i h
    simp [core, h]

end Descriptor

namespace Drafting

/-- How a leaf of a type of an owner's member refers to a class, if it does. -/
inductive Refers (owner : Document) (draft : Draft) : Leaf → Prop
  | nothing {leaf} : leaf.target? = none → Refers owner draft leaf
  | reference {target className isAsset document} : isClassLike document.body = true →
      draft.catalog.Knows document → draft.Holds target document.key →
      Refers owner draft (.reference target className isAsset)
  | inlineObject {target className path document own} :
      document.key = owner.key ++ "#inline/" ++ path → draft.catalog.Knows document →
      draft.catalog.Knows own → own.link? = none → (document.link? = none → own = document) →
      draft.Holds target own.key → Refers owner draft (.inlineObject target className)

variable {draft after : Draft}

theorem Refers.mono {owner : Document} {leaf : Leaf} (h : Refers owner draft leaf)
    (within : draft.Within after) : Refers owner after leaf := by
  cases h with
  | nothing hleaf => exact .nothing hleaf
  | reference hclass known holds =>
    exact .reference hclass (within.knows known) (within.holds holds)
  | inlineObject hkey known knownOwn hlink hself holds =>
    exact .inlineObject hkey (within.knows known) (within.knows knownOwn) hlink hself
      (within.holds holds)

theorem Refers.lt {owner : Document} {leaf : Leaf} {id : ClassId} (h : Refers owner draft leaf)
    (hid : leaf.target? = some id) : id < draft.places.length := by
  cases h with
  | nothing hleaf => simp [hleaf] at hid
  | reference _ _ holds =>
    obtain rfl := Option.some.inj hid
    exact holds.lt
  | inlineObject _ _ _ _ _ holds =>
    obtain rfl := Option.some.inj hid
    exact holds.lt

theorem Interns.holds_self {document : Document} {id : ClassId}
    (h : Interns document draft (some id) after) (hlink : document.link? = none) :
    after.Holds id document.key := by
  obtain ⟨own, between, hown, -, holds⟩ := h.holds
  rwa [hown.eq_self hlink] at holds

/-- The leaf of every type that is found refers to a class as it should. -/
theorem Types.refers {owner : Owner} {path : String} {fragment : Json} {usage : Usage}
    {found : Option Descriptor} (h : Types owner path fragment usage draft found after) :
    ∀ type, found = some type → Refers owner.document after type.core := by
  induction h with
  | empty => simp
  | enumeration _ htype =>
    rintro _ ⟨⟩
    rw [Descriptor.core_documented]
    obtain ⟨type, rfl, -⟩ | ⟨fault, rfl, -⟩ := enumerationType_inv htype <;> exact .nothing rfl
  | anyItems | anyValues | missing | index | json | circular | unsupported =>
    rintro _ ⟨⟩
    exact .nothing rfl
  | scalar =>
    rintro _ ⟨⟩
    exact .nothing (by cases ‹ScalarType› <;> rfl)
  | array _ _ ih =>
    intro type htype
    obtain ⟨item, hitem, rfl⟩ := Option.map_eq_some_iff.mp htype
    simpa using ih item hitem
  | @inlineObject path _ _ _ document _ id after _ hdocument hid =>
    rintro _ ⟨⟩
    cases id with
    | none => exact .nothing rfl
    | some target =>
      have hinsert := inlineDocument_inv hdocument
      obtain ⟨own, between, hown, hcatalog, holds⟩ := hid.holds
      have known := insert_knows hinsert
      have hkey : document.key = owner.document.key ++ "#inline/" ++ path := by
        rw [(insert_inv hinsert).1, Catalog.insert_key]
      have knownOwn : after.catalog.Knows own := by
        rw [hcatalog]
        exact hown.knows known
      exact .inlineObject hkey (known.mono hid.grows.catalog) knownOwn hown.link? hown.eq_self
        holds
  | @dictionary _ _ _ _ _ value _ _ _ _ ih =>
    rintro _ ⟨⟩
    rw [Descriptor.core_documented, Descriptor.core_dictionaryOf]
    cases value with
    | none => exact .nothing rfl
    | some value => exact ih value rfl
  | @reference _ _ _ _ _ _ _ id _ _ hleads hclass hid =>
    rintro _ ⟨⟩
    cases id with
    | none => exact .nothing rfl
    | some target =>
      rw [Descriptor.core_documented, Option.map_some, Option.getD_some,
        Descriptor.core_reference]
      exact .reference hclass ((load_knows hleads.loads).mono hid.grows.catalog)
        (hid.holds_self (Document.link?_of_isClassLike hclass))
  | @followed _ _ _ _ _ _ _ type _ _ _ _ _ _ ih =>
    rintro _ ⟨⟩
    rw [Descriptor.core_documented]
    cases type with
    | none => exact .nothing rfl
    | some type => exact (ih type rfl).mono (.leave _ _)
  | composite _ _ ih =>
    intro type htype
    obtain ⟨inner, hinner, rfl⟩ := Option.map_eq_some_iff.mp htype
    simpa using ih inner hinner

section

variable {owner : Owner} {P : Draft → String → Descriptor → Prop}

/-- What holds of every type that is found at a path, and goes on to hold while the draft grows,
holds of the types of all members. -/
theorem Members.forall_types
    (found : ∀ {path fragment usage draft type after},
      Types owner path fragment usage draft (some type) after → P after path type)
    (grows : ∀ {draft after path type}, draft.Grows after → P draft path type → P after path type)
    {declared : List (String × Json)} {members : List Property}
    (h : Members owner declared draft members after) : ∀ p ∈ members, P after p.name p.type := by
  induction h with
  | nil => simp
  | implied _ _ ih => exact ih
  | stub _ _ _ ih => exact ih
  | member _ htype hrest ih =>
    intro p hp
    rcases List.mem_cons.mp hp with rfl | hp
    · exact grows hrest.grows (found htype)
    · exact ih p hp

end

end Drafting

end SchemaClasses
