import SchemaClasses.Proofs.Drafting.Optionality
import SchemaClasses.Proofs.Drafting.References
import SchemaClasses.Proofs.Enumeration.Acceptance

/-!
# Defaults of enumerations

An enumeration is reached from a property through containers, and between the borders of these along
chains of fragments that describe the same value. Its default comes from the innermost chain: it is
the first one that a fragment of the chain declares, except at the values of a dictionary, where the
fragment that comes first is not asked.
-/

namespace SchemaClasses

theorem Descriptor.core_documentedBy (type : Descriptor) (outer : List Json) :
    (type.documentedBy outer).core = type.core := by
  induction outer with
  | nil => rfl
  | cons fragment outer ih => exact (core_documented _ _).trans ih

namespace Drafting

theorem firstDefault_eq_or (fragment : Json) (rest : List Json) :
    firstDefault (fragment :: rest) = (fragment.get? "default").or (firstDefault rest) :=
  firstDefault_cons none rest

/-- Where a chain of fragments starts: at a property or behind the border of a container. -/
inductive Slot where
  | property
  | items
  | values

namespace Slot

variable {slot : Slot} {fragment : Json} {rest : List Json}

/-- The default of the first fragment of a chain, where it is asked. -/
def declared (slot : Slot) (fragment : Json) : Option Json :=
  match slot with
  | .property => fragment.get? "default"
  | .items => fragment.get? "default"
  | .values => none

/-- The default that the fragments of a chain give to its end. -/
def defaultAlong (slot : Slot) (fragments : List Json) : Option Json :=
  match slot with
  | .property => firstDefault fragments
  | .items => firstDefault fragments
  | .values => firstDefault fragments.tail

theorem defaultAlong_cons :
    slot.defaultAlong (fragment :: rest) = (slot.declared fragment).or (firstDefault rest) := by
  cases slot with
  | property | items => exact firstDefault_eq_or fragment rest
  | values => rfl

/-- A chain starts at the values of a dictionary, with a fragment that declares another default than
the fragments after it. -/
def Ignores (slot : Slot) (fragments : List Json) : Prop :=
  slot = .values ∧ ∃ first rest default, fragments = first :: rest ∧
    first.get? "default" = some default ∧ firstDefault rest ≠ some default

/-- The end of a chain gets the first default of its fragments unless that is ignored. -/
theorem defaultAlong_eq_iff {fragments : List Json} :
    slot.defaultAlong fragments = firstDefault fragments ↔ ¬slot.Ignores fragments := by
  unfold Ignores
  cases slot with
  | property | items => exact iff_of_true rfl nofun
  | values =>
    cases fragments with
    | nil => exact iff_of_true rfl nofun
    | cons first rest =>
      change firstDefault rest = _ ↔ _
      rw [firstDefault_eq_or]
      cases hdefault : first.get? "default" with
      | none => simp [hdefault]
      | some default => simp [hdefault]

end Slot

/-- An enumeration is reached from a fragment: at the end of its chain, or from the items or the
values of a container there. With the enumeration come the place where its own chain starts and the
fragments of that chain before it. -/
inductive Reaches : Slot → Json → Draft → Slot → List Json → Json → Draft → Prop
  | enumeration {slot fragment draft outer last during} :
      Chain fragment draft outer last during → PropertyShape.of last = .enumeration →
      Reaches slot fragment draft slot outer last during
  | items {slot fragment draft outer container between items inner chain last during} :
      Chain fragment draft outer container between →
      PropertyShape.of container = .array (some items) →
      Reaches .items items between inner chain last during →
      Reaches slot fragment draft inner chain last during
  | values {slot fragment draft outer container between values inner chain last during} :
      Chain fragment draft outer container between →
      PropertyShape.of container = .dictionary values → values.asBool? ≠ some true →
      Reaches .values values between inner chain last during →
      Reaches slot fragment draft inner chain last during

variable {owner : Owner} {path : String} {fragment next last : Json} {usage : Usage}
variable {draft between during after : Draft} {outer : List Json} {slot inner : Slot}
variable {found : Option Descriptor}

/-! ### What is reached -/

/-- The leaf of a type comes from what is reached, which is read with the default of its chain. -/
theorem Reaches.core (h : Reaches slot fragment draft inner outer last during)
    (htypes : Types owner path fragment usage draft found after)
    (hslot : usage.default = slot.declared fragment) :
    ∃ path isRequired bare stop type,
      enumerationType owner path last ⟨isRequired, inner.defaultAlong (outer ++ [last])⟩ during =
        some (bare, stop) ∧
      found = some type ∧ type.core = bare.core := by
  induction h generalizing path usage found after with
  | @enumeration slot fragment draft outer last during hchain hshape =>
    obtain ⟨result, stop, hlast, houter⟩ := hchain.types_from htypes
    obtain ⟨bare, hbare, rfl⟩ := hlast.enumeration_inv hshape
    obtain ⟨rest, hfragments⟩ := hchain.eq_cons
    refine ⟨path, usage.isRequired, bare, stop, _, ?_, houter _ rfl, ?_⟩
    · rw [hfragments, List.tail_cons, hslot] at hbare
      rw [hfragments, Slot.defaultAlong_cons]
      exact hbare
    · rw [Descriptor.core_documentedBy, Descriptor.core_documented]
  | items hchain hshape _ ih =>
    obtain ⟨result, stop, hlast, houter⟩ := hchain.types_from htypes
    obtain ⟨item, hitem, rfl⟩ := hlast.array_inv hshape
    obtain ⟨path, isRequired, bare, stop, type, hbare, rfl, hcore⟩ := ih hitem rfl
    refine ⟨path, isRequired, bare, stop, _, hbare, houter _ rfl, ?_⟩
    rw [Descriptor.core_documentedBy, Descriptor.core_documented, Descriptor.core_arrayOf, hcore]
  | values hchain hshape hvalues _ ih =>
    obtain ⟨result, stop, hlast, houter⟩ := hchain.types_from htypes
    obtain ⟨value, hvalue, rfl⟩ := hlast.dictionary_inv hshape hvalues
    obtain ⟨path, isRequired, bare, stop, type, hbare, rfl, hcore⟩ := ih hvalue rfl
    refine ⟨path, isRequired, bare, stop, _, hbare, houter _ rfl, ?_⟩
    rw [Descriptor.core_documentedBy, Descriptor.core_documented, Descriptor.core_dictionaryOf,
      Option.getD_some, hcore]

theorem Reaches.of_forwards (h : Reaches slot next between inner outer last during)
    (hforwards : Forwards fragment draft next between) :
    ∃ outer, Reaches slot fragment draft inner outer last during := by
  cases h with
  | enumeration hchain hshape => exact ⟨_, .enumeration (.cons hforwards hchain) hshape⟩
  | items hchain hshape h => exact ⟨_, .items (.cons hforwards hchain) hshape h⟩
  | values hchain hshape hvalues h => exact ⟨_, .values (.cons hforwards hchain) hshape hvalues h⟩

/-- A type with an enumeration for its leaf comes from a fragment that reaches one. -/
theorem Types.exists_reaches (h : Types owner path fragment usage draft found after)
    (slot : Slot) : ∀ type, found = some type → ∀ e, type.core = .enumeration e →
      ∃ inner outer last during, Reaches slot fragment draft inner outer last during := by
  induction h generalizing slot with
  | empty =>
    intro type htype
    cases htype
  | enumeration hshape => exact fun _ _ _ _ => ⟨slot, [], _, _, .enumeration .last hshape⟩
  | @scalar _ _ kind =>
    rintro _ ⟨⟩ e hcore
    rw [Descriptor.core_documented] at hcore
    cases kind <;> cases hcore
  | anyItems | anyValues | missing | index | json | circular | unsupported =>
    rintro _ ⟨⟩ e hcore
    rw [Descriptor.core_documented] at hcore
    cases hcore
  | array hshape _ ih =>
    intro type htype e hcore
    obtain ⟨item, hitem, rfl⟩ := Option.map_eq_some_iff.mp htype
    rw [Descriptor.core_documented, Descriptor.core_arrayOf] at hcore
    obtain ⟨inner, outer, last, during, h⟩ := ih .items item hitem e hcore
    exact ⟨inner, outer, last, during, .items .last hshape h⟩
  | @inlineObject _ _ _ _ _ _ id _ =>
    rintro _ ⟨⟩ e hcore
    rw [Descriptor.core_documented] at hcore
    cases id <;> cases hcore
  | @dictionary _ _ _ _ _ value _ hshape hvalues _ ih =>
    rintro _ ⟨⟩ e hcore
    rw [Descriptor.core_documented, Descriptor.core_dictionaryOf] at hcore
    cases value with
    | none => cases hcore
    | some value =>
      obtain ⟨inner, outer, last, during, h⟩ := ih .values value rfl e hcore
      exact ⟨inner, outer, last, during, .values .last hshape hvalues h⟩
  | @reference _ _ _ _ _ _ _ id =>
    rintro _ ⟨⟩ e hcore
    rw [Descriptor.core_documented] at hcore
    cases id with
    | none => cases hcore
    | some target =>
      rw [Option.map_some, Option.getD_some, Descriptor.core_reference] at hcore
      cases hcore
  | @followed _ _ _ _ _ _ _ type _ hshape hleads hclass hkey _ ih =>
    rintro _ ⟨⟩ e hcore
    rw [Descriptor.core_documented] at hcore
    cases type with
    | none => cases hcore
    | some type =>
      obtain ⟨inner, outer, last, during, h⟩ := ih slot type rfl e hcore
      obtain ⟨outer, h⟩ := h.of_forwards (.reference hshape hleads hclass hkey)
      exact ⟨inner, outer, last, during, h⟩
  | composite hshape _ ih =>
    intro type htype e hcore
    obtain ⟨type, hinner, rfl⟩ := Option.map_eq_some_iff.mp htype
    rw [Descriptor.core_documented] at hcore
    obtain ⟨inner, outer, last, during, h⟩ := ih slot type hinner e hcore
    obtain ⟨outer, h⟩ := h.of_forwards (.entry hshape)
    exact ⟨inner, outer, last, during, h⟩

/-! ### Members -/

/-- What an enumeration says when it was read from a fragment with a default: its constants are the
literals that the fragment lists, and the one that stands for an absent value is the first one with
the default for its value, or else the first of all. -/
def ReadWith (default : Option Json) (fragment : Json) (e : Enumeration) : Prop :=
  e.variants.map (·.value.toJson) = (Enumeration.Entry.list fragment).filterMap (·.literal) ∧
    ∃ v, Enumeration.IsDefault default e.variants v ∧ e.defaultIdentifier = some v.identifier

theorem readWith_of_ofFragment {name scope : String} {default : Option Json} {e : Enumeration}
    (h : Enumeration.ofFragment name scope fragment default = .ok e) :
    ReadWith default fragment e :=
  ⟨Enumeration.map_toJson_variants h, Enumeration.isDefault_of_ofFragment h⟩

/-- A fragment that lists an enumeration gives it for a type, and one that lists none gives any JSON
value. -/
theorem enumerationType_core {type : Descriptor}
    (h : enumerationType owner path fragment usage draft = some (type, after)) :
    (∃ e, type.core = .enumeration e ∧ ReadWith usage.default fragment e) ∨
      type.core = .json ∧
        ∀ type, ¬Enumeration.Entry.AgreeOn type (Enumeration.Entry.list fragment) := by
  unfold enumerationType at h
  rw [get_bind] at h
  obtain ⟨found, between, hfound, hnext⟩ := bind_inv h
  obtain ⟨e, hread, rfl, -⟩ | ⟨fault, hread, rfl, -⟩ := enumerationOf_inv hfound
  · obtain ⟨rfl, -⟩ := pure_inv hnext
    exact .inl ⟨e, rfl, readWith_of_ofFragment hread⟩
  · obtain ⟨rfl, -⟩ := pure_inv hnext
    refine .inr ⟨rfl, fun type hagree => ?_⟩
    obtain ⟨e, hok⟩ := Enumeration.exists_of_agreeOn hagree _ _ _
    cases hread.symm.trans hok

/-- Every property of an object was found for a fragment that its schema declares. Each enumeration
that is reached from there has the default of its own chain, if it has a type at all, and an
enumeration that a property has was reached. -/
theorem enumerations_default {catalog : Catalog} {settings : Settings} {naming : Naming}
    {ids : List ClassId} {depth : Nat} {draft after : Draft} {table : ClassTable}
    (h : Called (.new catalog settings naming) ids draft)
    (hfinish : finish depth draft = some (table, after)) {id : ClassId} {c : ClassDescriptor}
    {object : ObjectClass} (hc : table.get? id = some c) (hobject : c.object? = some object) :
    ∃ place, after.places[id]? = some place ∧ place.document.key = c.source ∧
      ∀ p ∈ object.properties, ∃ fragment depth start stop,
        (p.name, fragment) ∈ place.document.properties ∧
        propertyType depth ⟨place.document, c.typeName⟩ p.name fragment p.isRequired start =
          some (some p.type, stop) ∧
        (∀ slot outer last during, Reaches .property fragment start slot outer last during →
          ((∃ e, p.type.core = .enumeration e ∧
            ReadWith (slot.defaultAlong (outer ++ [last])) last e) ∨
          p.type.core = .json ∧
            ∀ type, ¬Enumeration.Entry.AgreeOn type (Enumeration.Entry.list last)) ∧
          (slot.defaultAlong (outer ++ [last]) = firstDefault (outer ++ [last]) ↔
            ¬slot.Ignores (outer ++ [last]))) ∧
        ∀ e, p.type.core = .enumeration e →
          ∃ slot outer last during, Reaches .property fragment start slot outer last during := by
  obtain ⟨place, hplace, hkey, hfound⟩ := h.found_properties hfinish hc hobject
  refine ⟨place, hplace, hkey, fun p hp => ?_⟩
  obtain ⟨fragment, depth, start, stop, hmem, -, htype⟩ := hfound p hp
  have htypes := fragmentType_types htype
  refine ⟨fragment, depth, start, stop, hmem, htype, fun slot outer last during hreaches => ?_,
    fun e hcore => htypes.exists_reaches .property p.type rfl e hcore⟩
  obtain ⟨_, _, bare, _, type, hbare, ⟨⟩, hcore⟩ := hreaches.core htypes rfl
  rw [hcore]
  exact ⟨enumerationType_core hbare, Slot.defaultAlong_eq_iff⟩

def eitherWith (default : String) : Json :=
  .obj [("type", .str "string"), ("enum", .arr [.str "A", .str "B"]), ("default", .str default)]

def eitherConstants : List Variant := [⟨"A", .string "A", some "A"⟩, ⟨"B", .string "B", some "B"⟩]

/-- Whether the type of a property is the enumeration of A and B, with a default. -/
def resolvesEither (default : String) (p : Property) : Bool :=
  match p.type.core with
  | .enumeration e => e.variants == eitherConstants && e.defaultIdentifier == some default
  | _ => false

theorem resolvesEither_inv {default : String} {p : Property} (h : resolvesEither default p) :
    ∃ e, p.type.core = .enumeration e ∧ e.variants = eitherConstants ∧
      e.defaultIdentifier = some default := by
  unfold resolvesEither at h
  split at h
  · obtain ⟨hvariants, hdefault⟩ := Bool.and_eq_true_iff.mp h
    exact ⟨_, ‹_›, eq_of_beq hvariants, eq_of_beq hdefault⟩
  · cases h

/-- Whether a fragment lists constants and declares a default. -/
def listsWith (default : Option String) (fragment : Json) : Bool :=
  match PropertyShape.of fragment with
  | .enumeration => fragment.string? "default" == default
  | _ => false

theorem listsWith_inv {default : Option String} (h : listsWith default fragment) :
    PropertyShape.of fragment = .enumeration ∧ fragment.string? "default" = default := by
  unfold listsWith at h
  split at h
  · exact ⟨‹_›, eq_of_beq h⟩
  · cases h

/-- Whether a fragment is an array whose items declare a default around the only entry of an
`allOf`, which lists constants. -/
def itemsAround (default : String) (fragment : Json) : Bool :=
  (PropertyShape.of fragment).items?.any fun items => items.string? "default" == some default &&
    match PropertyShape.of items with
    | .composite last => listsWith (some "A") last
    | _ => false

theorem itemsAround_inv {default : String} (h : itemsAround default fragment) :
    ∃ items last, PropertyShape.of fragment = .array (some items) ∧
      items.string? "default" = some default ∧ PropertyShape.of items = .composite last ∧
      PropertyShape.of last = .enumeration := by
  obtain ⟨items, hitems, h⟩ := (Option.any_eq_true _ _).mp h
  obtain ⟨hdefault, hentry⟩ := Bool.and_eq_true_iff.mp h
  split at hentry
  · exact ⟨items, _, PropertyShape.eq_array_of_items? hitems, eq_of_beq hdefault, ‹_›,
      (listsWith_inv hentry).1⟩
  · cases hentry

/-- Whether a fragment is a dictionary whose values list constants and declare a default. -/
def valuesWith (default : String) (fragment : Json) : Bool :=
  match PropertyShape.of fragment with
  | .dictionary values => listsWith (some default) values && values.asBool?.isNone
  | _ => false

theorem valuesWith_inv {default : String} (h : valuesWith default fragment) :
    ∃ values, PropertyShape.of fragment = .dictionary values ∧ values.asBool? = none ∧
      PropertyShape.of values = .enumeration ∧ values.string? "default" = some default := by
  unfold valuesWith at h
  split at h
  · obtain ⟨hvalues, hbool⟩ := Bool.and_eq_true_iff.mp h
    exact ⟨_, ‹_›, Option.isNone_iff_eq_none.mp hbool, listsWith_inv hvalues⟩
  · cases h

theorem get?_of_string? {key text : String} (h : fragment.string? key = some text) :
    fragment.get? key = some (.str text) := by
  obtain ⟨value, hvalue, htext⟩ := Option.bind_eq_some_iff.mp h
  cases value <;> cases htext
  exact hvalue

/-- The default around the only entry of an `allOf` is that of the enumeration in an array. -/
theorem enumerations_default_items :
    let fragment : Json := .obj [("type", .str "array"),
      ("items", .obj [("allOf", .arr [eitherWith "A"]), ("default", .str "B")])]
    ∃ draft table after c object p declared items last start e,
      Called (.declaring fragment) [0] draft ∧ finish 8 draft = some (table, after) ∧
      table.get? 0 = some c ∧ c.object? = some object ∧ p ∈ object.properties ∧
      Reaches .property declared start .items [items] last start ∧
      p.type.core = .enumeration e ∧ ReadWith (some (.str "B")) last e := by
  intro fragment
  obtain ⟨draft, table, after, c, object, p, place, hcalled, hfinish, hc, hobject, hp, hresolves,
    hplace, hdeclares⟩ := exists_property_of_declaring fragment (resolvesEither "B")
      (itemsAround "B") (by decide +kernel)
  obtain ⟨e, hcore, -⟩ := resolvesEither_inv hresolves
  obtain ⟨other, hother, -, hfound⟩ := enumerations_default hcalled hfinish hc hobject
  obtain rfl := Option.some.inj (hplace.symm.trans hother)
  obtain ⟨declared, _, start, _, hmem, -, hreached, -⟩ := hfound p hp
  obtain ⟨items, last, harray, hdefault, hcomposite, hlast⟩ := itemsAround_inv (hdeclares _ hmem)
  have hreaches : Reaches .property declared start .items [items] last start :=
    .items .last harray (.enumeration (.cons (.entry hcomposite) .last) hlast)
  obtain ⟨e', hcore', hread⟩ := (hreached _ _ _ _ hreaches).1.resolve_right
    (by rw [hcore]; rintro ⟨⟨⟩, -⟩)
  obtain rfl := Leaf.enumeration.inj (hcore.symm.trans hcore')
  rw [Slot.defaultAlong, List.singleton_append, firstDefault_eq_or, get?_of_string? hdefault,
    Option.some_or] at hread
  exact ⟨draft, table, after, c, object, p, declared, items, last, start, e, hcalled, hfinish, hc,
    hobject, hp, hreaches, hcore, hread⟩

/-- The default of the values of a dictionary is not that of their enumeration. -/
theorem default_of_values_ignored :
    let fragment : Json := .obj [("type", .str "object"), ("additionalProperties", eitherWith "B")]
    ∃ draft table after c object p place declared values start e v,
      Called (.declaring fragment) [0] draft ∧
      finish 8 draft = some (table, after) ∧ table.get? 0 = some c ∧ c.object? = some object ∧
      p ∈ object.properties ∧ after.places[0]? = some place ∧
      (p.name, declared) ∈ place.document.properties ∧
      Reaches .property declared start .values [] values start ∧ p.type.core = .enumeration e ∧
      Enumeration.IsDefault (firstDefault [values]) e.variants v ∧ v.identifier = "B" ∧
      e.defaultIdentifier = some "A" := by
  intro fragment
  obtain ⟨draft, table, after, c, object, p, place, hcalled, hfinish, hc, hobject, hp, hresolves,
    hplace, hdeclares⟩ := exists_property_of_declaring fragment (resolvesEither "A")
      (valuesWith "B") (by decide +kernel)
  obtain ⟨e, hcore, hvariants, hidentifier⟩ := resolvesEither_inv hresolves
  obtain ⟨other, hother, -, hfound⟩ := hcalled.found_properties hfinish hc hobject
  obtain rfl := Option.some.inj (hplace.symm.trans hother)
  obtain ⟨declared, _, start, _, hmem, -⟩ := hfound p hp
  obtain ⟨values, hdictionary, hbool, hshape, hdefault⟩ := valuesWith_inv (hdeclares _ hmem)
  have hreaches : Reaches .property declared start .values [] values start :=
    .values .last hdictionary (by rw [hbool]; nofun) (.enumeration .last hshape)
  refine ⟨draft, table, after, c, object, p, place, declared, values, start, e,
    ⟨"B", .string "B", some "B"⟩, hcalled, hfinish, hc, hobject, hp, hplace, hmem, hreaches, hcore,
    ?_, rfl, hidentifier⟩
  rw [firstDefault_eq_or, get?_of_string? hdefault, Option.some_or, hvariants]
  exact .declared [⟨"A", .string "A", some "A"⟩] [] rfl rfl (by decide)

end Drafting

end SchemaClasses
