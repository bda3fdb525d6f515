import SchemaClasses.Proofs.ClassTable.Chains
import SchemaClasses.Proofs.Drafting.Built
import SchemaClasses.Proofs.Drafting.Forwarding
import SchemaClasses.Proofs.Json.Occurs

/-!
# Members that may be left out

Whether a member is wrapped is settled by the default that its fragment declares, and whether it may
be left out by the default that its type writes. A declared default is written only by arrays and
single values, where it has neither `null` nor an object in it, and by enumerations. So the two
agree when no default is declared, and a member of any other type may be left out in spite of its
default.
-/

namespace SchemaClasses

namespace Json

variable {json : Json}

/-- There is no `null` and no object in a value. -/
def IsLiteral (json : Json) : Prop :=
  ∀ part : Json, part.Occurs json → part ≠ .null ∧ ∀ fields, part ≠ .obj fields

theorem literals?_isSome_iff {items : List Json} :
    (literals? items).isSome ↔ ∀ item ∈ items, item.literal?.isSome := by
  induction items with
  | nil => simp [literals?]
  | cons item rest ih =>
    rw [List.forall_mem_cons, ← ih, literals?]
    cases item.literal? <;> cases literals? rest <;> simp

theorem literal?_arr_isSome_iff {items : List Json} :
    (arr items).literal?.isSome ↔ ∀ item ∈ items, item.literal?.isSome := by
  rw [literal?, Option.isSome_map, literals?_isSome_iff]

theorem isLiteral_of_literal? (h : json.literal?.isSome) : json.IsLiteral := by
  intro part hoccurs
  induction hoccurs with
  | self =>
    cases part with
    | null | obj => cases h
    | bool | num | str | arr => exact ⟨nofun, fun _ => nofun⟩
  | item hitem _ ih => exact ih (literal?_arr_isSome_iff.mp h _ hitem)
  | field => cases h

theorem literal?_of_isLiteral (json : Json) (h : json.IsLiteral) : json.literal?.isSome := by
  match json with
  | .null => exact absurd rfl (h .null .self).1
  | .obj fields => exact absurd rfl ((h (.obj fields) .self).2 fields)
  | .bool _ | .num _ | .str _ => rfl
  | .arr items =>
    refine literal?_arr_isSome_iff.mpr fun item hitem => ?_
    have hless := List.sizeOf_lt_of_mem hitem
    exact literal?_of_isLiteral item fun part hpart => h part (.item hitem hpart)

/-- The values that are written as defaults are those without `null` and objects. -/
theorem literal?_isSome_iff : json.literal?.isSome ↔ json.IsLiteral :=
  ⟨isLiteral_of_literal?, literal?_of_isLiteral json⟩

end Json

namespace Descriptor

/-- A type writes a declared default. -/
def Writes (default : Json) : Descriptor → Prop
  | leaf .integer _ => default.IsLiteral
  | leaf .double _ => default.IsLiteral
  | leaf .bool _ => default.IsLiteral
  | leaf .string _ => default.IsLiteral
  | leaf (.enumeration _) _ => True
  | leaf _ _ => False
  | array _ _ => default.IsLiteral
  | dictionary _ _ => False

/-- What a type that is no reference by index says where a default is declared. -/
def Defaulted (default : Json) (type : Descriptor) : Prop :=
  type.leaf? ≠ some .index →
    type.facets.isOptional = false ∧ (type.facets.defaultValue.isSome ↔ type.Writes default)

variable {default : Json} {type : Descriptor}

theorem writes_documented (outer : Documentation) :
    (type.documented outer).Writes default ↔ type.Writes default := by
  cases type with
  | leaf kind => cases kind <;> rfl
  | array | dictionary => rfl

theorem Defaulted.documented (h : type.Defaulted default) (outer : Documentation) :
    (type.documented outer).Defaulted default := by
  unfold Defaulted
  rw [leaf?_documented, facets_documented, writes_documented]
  exact h

/-- A type that is no reference by index writes no default. -/
def Defaultless (type : Descriptor) : Prop :=
  type.leaf? ≠ some .index → type.facets.defaultValue = none

theorem Defaultless.documented (h : type.Defaultless) (outer : Documentation) :
    (type.documented outer).Defaultless := by
  unfold Defaultless
  rw [leaf?_documented, facets_documented]
  exact h

theorem Defaultless.of_none (h : type.facets.defaultValue = none) : type.Defaultless := fun _ => h

theorem anyJson_defaulted : (anyJson false).Defaulted default :=
  fun _ => ⟨rfl, iff_of_false nofun id⟩

theorem scalar_defaulted (kind : ScalarType) :
    (scalar kind false (some default)).Defaulted default := by
  cases kind <;> exact fun _ => ⟨rfl, Json.literal?_isSome_iff⟩

theorem arrayOf_defaulted (item : Descriptor) :
    (arrayOf item (some default)).Defaulted default :=
  fun _ => ⟨rfl, Json.literal?_isSome_iff⟩

theorem dictionaryOf_defaulted (value : Descriptor) : (dictionaryOf value).Defaulted default :=
  fun _ => ⟨rfl, iff_of_false nofun id⟩

theorem inlineObject_defaulted (naming : Naming) (target : ClassId) (className : String) :
    (inlineObject naming target className false).Defaulted default :=
  fun _ => ⟨rfl, iff_of_false nofun id⟩

theorem reference_defaulted (naming : Naming) (target : ClassId) (className : String)
    (isAsset : Bool) : (reference naming target className isAsset false).Defaulted default := by
  cases isAsset <;> exact fun _ => ⟨rfl, iff_of_false nofun id⟩

end Descriptor

theorem Enumeration.defaultIdentifier_isSome {name scope : String} {fragment : Json}
    {default : Option Json} {e : Enumeration}
    (h : ofFragment name scope fragment default = .ok e) : e.defaultIdentifier.isSome := by
  obtain ⟨hsome, hdefault⟩ := ofFragment_inv h
  obtain ⟨first, rest, hvariants⟩ := List.exists_cons_of_ne_nil hsome
  rw [hdefault, defaultOf, hvariants, Option.isSome_map, List.head?_cons, Option.isSome_or,
    Option.isSome_some, Bool.or_true]

namespace Drafting

variable {owner : Owner} {path : String} {fragment : Json} {usage : Usage}
variable {draft after : Draft} {found : Option Descriptor}

theorem enumerationType_defaulted {type : Descriptor} {default : Json}
    (h : enumerationType owner path fragment usage draft = some (type, after))
    (hdefault : usage.default = some default) : type.Defaulted default := by
  have hoptional : usage.isOptional = false := by simp [Usage.isOptional, hdefault]
  unfold enumerationType at h
  rw [get_bind] at h
  obtain ⟨found, between, hfound, hnext⟩ := bind_inv h
  obtain ⟨e, hread, rfl, -⟩ | ⟨fault, -, rfl, -⟩ := enumerationOf_inv hfound
  · obtain ⟨rfl, -⟩ := pure_inv hnext
    rw [hoptional]
    refine fun _ => ⟨rfl, iff_of_true ?_ trivial⟩
    change (Option.map _ e.defaultIdentifier).isSome
    rw [Option.isSome_map]
    exact Enumeration.defaultIdentifier_isSome hread
  · obtain ⟨rfl, -⟩ := pure_inv hnext
    rw [hoptional]
    exact Descriptor.anyJson_defaulted

/-- A declared default goes with the value, whatever leads to its type. -/
theorem Types.defaulted (h : Types owner path fragment usage draft found after) {default : Json}
    (hdefault : usage.default = some default) :
    ∀ type, found = some type → type.Defaulted default := by
  have hoptional {usage : Usage} (hdefault : usage.default = some default) :
      usage.isOptional = false := by
    simp [Usage.isOptional, hdefault]
  induction h with
  | empty =>
    intro type htype
    cases htype
  | enumeration _ htype =>
    rintro _ ⟨⟩
    exact (enumerationType_defaulted htype hdefault).documented _
  | array =>
    intro type htype
    obtain ⟨item, -, rfl⟩ := Option.map_eq_some_iff.mp htype
    rw [hdefault]
    exact (Descriptor.arrayOf_defaulted item).documented _
  | anyItems =>
    rintro _ ⟨⟩
    rw [hdefault]
    exact (Descriptor.arrayOf_defaulted _).documented _
  | scalar =>
    rintro _ ⟨⟩
    rw [hoptional hdefault, hdefault]
    exact (Descriptor.scalar_defaulted _).documented _
  | @inlineObject _ _ _ _ _ _ id =>
    rintro _ ⟨⟩
    rw [hoptional hdefault]
    cases id with
    | none => exact Descriptor.anyJson_defaulted.documented _
    | some target => exact (Descriptor.inlineObject_defaulted _ target _).documented _
  | anyValues | dictionary =>
    rintro _ ⟨⟩
    exact (Descriptor.dictionaryOf_defaulted _).documented _
  | missing | json | circular | unsupported =>
    rintro _ ⟨⟩
    rw [hoptional hdefault]
    exact Descriptor.anyJson_defaulted.documented _
  | index =>
    rintro _ ⟨⟩ hindex
    exact absurd rfl hindex
  | @reference _ _ _ _ _ _ _ id =>
    rintro _ ⟨⟩
    rw [hoptional hdefault]
    cases id with
    | none => exact Descriptor.anyJson_defaulted.documented _
    | some target => exact (Descriptor.reference_defaulted _ target _ _).documented _
  | @followed _ _ _ _ _ document _ type _ _ _ _ _ _ ih =>
    rintro _ ⟨⟩
    cases type with
    | none =>
      rw [hoptional hdefault]
      exact Descriptor.anyJson_defaulted.documented _
    | some type =>
      exact (ih (by rw [Usage.inside, hdefault, Option.or]) type rfl).documented _
  | composite _ _ ih =>
    intro type htype
    obtain ⟨inner, hinner, rfl⟩ := Option.map_eq_some_iff.mp htype
    exact (ih (by rw [Usage.inside, hdefault, Option.or]) inner hinner).documented _

/-- Where nothing along the chain of a fragment declares a default, none is written for a value that
may be missing, except for a reference by index. -/
theorem Types.defaultless (h : Types owner path fragment usage draft found after)
    (hrequired : usage.isRequired = false) (hnone : usage.default = none)
    (hchain : ∀ outer last during, Chain fragment draft outer last during →
      last.get? "default" = none) :
    ∀ type, found = some type → type.Defaultless := by
  induction h with
  | empty =>
    intro type htype
    cases htype
  | enumeration _ htype =>
    rintro _ ⟨⟩
    refine .documented ?_ _
    obtain ⟨e, rfl, -⟩ | ⟨fault, rfl, -⟩ := enumerationType_inv htype
    · exact .of_none (if_pos (Usage.isOptional_iff.mpr ⟨hrequired, hnone⟩))
    · exact .of_none rfl
  | array =>
    intro type htype
    obtain ⟨item, -, rfl⟩ := Option.map_eq_some_iff.mp htype
    rw [hnone]
    exact .documented (.of_none rfl) _
  | anyItems | scalar =>
    rintro _ ⟨⟩
    rw [hnone]
    exact .documented (.of_none rfl) _
  | @inlineObject _ _ _ _ _ _ id =>
    rintro _ ⟨⟩
    cases id <;> exact .documented (.of_none rfl) _
  | anyValues | dictionary | missing | json | circular | unsupported =>
    rintro _ ⟨⟩
    exact .documented (.of_none rfl) _
  | index =>
    rintro _ ⟨⟩ hindex
    exact absurd rfl hindex
  | @reference _ _ _ _ _ document between id =>
    rintro _ ⟨⟩
    refine .documented (.of_none ?_) _
    cases id with
    | none => rfl
    | some target => cases (document.title?.map between.settings.isAsset).getD false <;> rfl
  | @followed _ _ _ _ _ _ _ type _ hshape hleads hclass hkey _ ih =>
    rintro _ ⟨⟩
    have hstep := Forwards.reference hshape hleads hclass hkey
    have hnext := hchain _ _ _ (.cons hstep .last)
    cases type with
    | none => exact .documented (.of_none rfl) _
    | some type =>
      exact (ih hrequired (by rw [Usage.inside, hnone, hnext, Option.or])
        (fun outer last during h => hchain _ last during (.cons hstep h)) type rfl).documented _
  | composite hshape _ ih =>
    intro type htype
    obtain ⟨inner, hinner, rfl⟩ := Option.map_eq_some_iff.mp htype
    have hnext := hchain _ _ _ (.cons (.entry hshape) .last)
    exact (ih hrequired (by rw [Usage.inside, hnone, hnext, Option.or])
      (fun outer last during h => hchain _ last during (.cons (.entry hshape) h)) inner
      hinner).documented _

/-- A member may be left out in spite of a declared default when its type does not write it. Without
a default along the chain of its fragment it may be left out whenever it is not required. -/
theorem omittable_of_propertyType {p : Property} {depth : Nat} {start stop : Draft}
    (h : propertyType depth owner p.name fragment p.isRequired start = some (some p.type, stop)) :
    (∀ default, fragment.get? "default" = some default → p.type.leaf? ≠ some .index →
      p.type.facets.isOptional = false ∧
        (p.isOmittable = false ↔ p.isRequired = true ∨ p.type.Writes default)) ∧
    (p.isRequired = false → (∀ outer last during, Chain fragment start outer last during →
      last.get? "default" = none) → p.type.leaf? ≠ some .index → p.isOmittable = true) := by
  have htypes := fragmentType_types h
  refine ⟨fun default hdefault hindex => ?_, fun hrequired hchain hindex => ?_⟩
  · obtain ⟨hoptional, hwrites⟩ := htypes.defaulted hdefault p.type rfl hindex
    refine ⟨hoptional, ?_⟩
    rw [← hwrites, Property.isOmittable]
    cases p.isRequired <;> cases p.type.facets.defaultValue <;> simp
  · have hnone := htypes.defaultless hrequired (hchain [] fragment start .last) hchain p.type rfl
      hindex
    rw [Property.isOmittable, hrequired, hnone]
    rfl

end Drafting

namespace Drafting

theorem Called.found_properties {catalog : Catalog} {settings : Settings} {naming : Naming}
    {ids : List ClassId} {depth : Nat} {draft after : Draft} {table : ClassTable}
    (h : Called (.new catalog settings naming) ids draft)
    (hfinish : finish depth draft = some (table, after)) {id : ClassId} {c : ClassDescriptor}
    {object : ObjectClass} (hc : table.get? id = some c) (hobject : c.object? = some object) :
    ∃ place, after.places[id]? = some place ∧ place.document.key = c.source ∧
      ∀ p ∈ object.properties,
        FoundFor ⟨place.document, c.typeName⟩ place.document.properties p := by
  obtain ⟨orderly, hpending, -, rfl, hplaces⟩ := h.finished hfinish
  have built := h.allBuilt (Draft.new_allBuilt catalog settings naming)
  rw [hplaces]
  exact built.found_properties orderly hpending hc hobject

/-- Every property of an object was found for a fragment that its schema declares. Where the
fragment declares a default, a property that is no reference by index is not wrapped in
`std::optional`, and it may be left out unless it is required or its type writes the default. Where
no fragment along the chain declares a default, it may be left out unless it is required. -/
theorem properties_omittable {catalog : Catalog} {settings : Settings} {naming : Naming}
    {ids : List ClassId} {depth : Nat} {draft after : Draft} {table : ClassTable}
    (h : Called (.new catalog settings naming) ids draft)
    (hfinish : finish depth draft = some (table, after)) {id : ClassId} {c : ClassDescriptor}
    {object : ObjectClass} (hc : table.get? id = some c) (hobject : c.object? = some object) :
    ∃ place, after.places[id]? = some place ∧ place.document.key = c.source ∧
      ∀ p ∈ object.properties, ∃ fragment depth start stop,
        (p.name, fragment) ∈ place.document.properties ∧
        p.isRequired = place.document.requires p.name ∧
        propertyType depth ⟨place.document, c.typeName⟩ p.name fragment p.isRequired start =
          some (some p.type, stop) ∧
        (∀ default, fragment.get? "default" = some default → p.type.leaf? ≠ some .index →
          p.type.facets.isOptional = false ∧
            (p.isOmittable = false ↔ p.isRequired = true ∨ p.type.Writes default)) ∧
        (p.isRequired = false → (∀ outer last during, Chain fragment start outer last during →
          last.get? "default" = none) → p.type.leaf? ≠ some .index → p.isOmittable = true) := by
  obtain ⟨place, hplace, hkey, hfound⟩ := h.found_properties hfinish hc hobject
  refine ⟨place, hplace, hkey, fun p hp => ?_⟩
  obtain ⟨fragment, depth, start, stop, hmem, hrequired, htype⟩ := hfound p hp
  exact ⟨fragment, depth, start, stop, hmem, hrequired, htype, omittable_of_propertyType htype⟩

end Drafting

def Draft.declaring (fragment : Json) : Draft :=
  .new (.new (.ofSchemas [("c", .withProperty "p" fragment)]) ["/s"] []) .empty (.ofNamespace "N")

namespace Drafting

/-- The class of a schema that declares one property, with what can be tested on that property and
on the fragment that declares it. -/
theorem exists_property_of_declaring (fragment : Json) (resolves : Property → Bool)
    (declares : Json → Bool)
    (h : ((resolve 8 "c" (.declaring fragment) : Option _).any fun resolved =>
      resolved.1 == some 0 && (finish 8 resolved.2).any fun finished =>
        ((finished.1.get? 0).bind (·.object?)).any (·.properties.any resolves) &&
          finished.2.places[0]?.any (·.document.properties.all (declares ·.2))) = true) :
    ∃ draft table after c object p place, Called (.declaring fragment) [0] draft ∧
      finish 8 draft = some (table, after) ∧ table.get? 0 = some c ∧ c.object? = some object ∧
      p ∈ object.properties ∧ resolves p ∧ after.places[0]? = some place ∧
      ∀ entry ∈ place.document.properties, declares entry.2 := by
  obtain ⟨⟨found, draft⟩, hcall, hresolved⟩ := (Option.any_eq_true _ _).mp h
  obtain ⟨hfound, hfinished⟩ := Bool.and_eq_true_iff.mp hresolved
  obtain ⟨⟨table, after⟩, hfinish, hfacts⟩ := (Option.any_eq_true _ _).mp hfinished
  obtain ⟨hclass, hplace⟩ := Bool.and_eq_true_iff.mp hfacts
  obtain ⟨object, hlookup, hproperty⟩ := (Option.any_eq_true _ _).mp hclass
  obtain ⟨c, hc, hobject⟩ := Option.bind_eq_some_iff.mp hlookup
  obtain ⟨p, hp, hresolves⟩ := List.any_eq_true.mp hproperty
  obtain ⟨place, hplace, hdeclares⟩ := (Option.any_eq_true _ _).mp hplace
  obtain rfl := eq_of_beq hfound
  exact ⟨draft, table, after, c, object, p, place, .resolve .none hcall, hfinish, hc, hobject, hp,
    hresolves, hplace, List.all_eq_true.mp hdeclares⟩

/-- A number may not be left out when its default is written. -/
theorem properties_omittable_number :
    let fragment : Json := .obj [("type", .str "number"), ("default", .num (.int 1))]
    ∃ draft table after c object p, Called (.declaring fragment) [0] draft ∧
      finish 8 draft = some (table, after) ∧ table.get? 0 = some c ∧ c.object? = some object ∧
      p ∈ object.properties ∧ p.isRequired = false ∧ p.type.facets.isOptional = false ∧
      p.isOmittable = false := by
  intro fragment
  obtain ⟨draft, table, after, c, object, p, place, hcalled, hfinish, hc, hobject, hp, hresolves,
    hplace, hdeclares⟩ := exists_property_of_declaring fragment
      (fun p => p.type.leaf? == some .double && !p.isRequired)
      (fun declared => (declared.get? "default").any (·.literal?.isSome)) (by decide +kernel)
  obtain ⟨hleaf, hrequired⟩ := Bool.and_eq_true_iff.mp hresolves
  have hleaf : p.type.leaf? = some .double := eq_of_beq hleaf
  obtain ⟨other, hother, -, hfound⟩ := properties_omittable hcalled hfinish hc hobject
  obtain rfl := Option.some.inj (hplace.symm.trans hother)
  obtain ⟨declared, _, _, _, hmem, -, -, hdefaulted, -⟩ := hfound p hp
  obtain ⟨default, hdefault, hwritten⟩ := (Option.any_eq_true _ _).mp (hdeclares _ hmem)
  obtain ⟨hoptional, homittable⟩ := hdefaulted default hdefault (by rw [hleaf]; nofun)
  refine ⟨draft, table, after, c, object, p, hcalled, hfinish, hc, hobject, hp,
    by simpa using hrequired, hoptional, homittable.mpr (.inr ?_)⟩
  cases htype : p.type with
  | leaf kind =>
    rw [htype] at hleaf
    obtain rfl : kind = .double := Option.some.inj hleaf
    exact Json.literal?_isSome_iff.mp hwritten
  | array | dictionary => rw [htype] at hleaf; cases hleaf

/-- A dictionary may be left out although it declares a default. -/
theorem omittable_despite_default :
    let fragment : Json := .obj [("type", .str "object"), ("additionalProperties", .number),
      ("default", .obj [])]
    ∃ draft table after c object p place declared, Called (.declaring fragment) [0] draft ∧
      finish 8 draft = some (table, after) ∧ table.get? 0 = some c ∧ c.object? = some object ∧
      p ∈ object.properties ∧ after.places[0]? = some place ∧
      (p.name, declared) ∈ place.document.properties ∧ (declared.get? "default").isSome ∧
      p.type.leaf? ≠ some .index ∧ p.isOmittable = true := by
  intro fragment
  obtain ⟨draft, table, after, c, object, p, place, hcalled, hfinish, hc, hobject, hp, hresolves,
    hplace, hdeclares⟩ := exists_property_of_declaring fragment
      (fun p => p.type.leaf? == none && p.isOmittable)
      (fun declared => (declared.get? "default").isSome) (by decide +kernel)
  obtain ⟨hleaf, homittable⟩ := Bool.and_eq_true_iff.mp hresolves
  have hleaf : p.type.leaf? = none := eq_of_beq hleaf
  obtain ⟨other, hother, -, hfound⟩ := hcalled.found_properties hfinish hc hobject
  obtain rfl := Option.some.inj (hplace.symm.trans hother)
  obtain ⟨declared, _, _, _, hmem, -⟩ := hfound p hp
  exact ⟨draft, table, after, c, object, p, place, declared, hcalled, hfinish, hc, hobject, hp,
    hplace, hmem, hdeclares _ hmem, by rw [hleaf]; nofun, homittable⟩

end Drafting

end SchemaClasses
