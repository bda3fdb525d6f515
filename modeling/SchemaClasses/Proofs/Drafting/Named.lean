import SchemaClasses.Proofs.Drafting.Calls
import SchemaClasses.Proofs.Drafting.Documented

/-!
# Names of classes at their uses

A type names the class that its leaf refers to, and spells the value and the reader in that name.
The name is what the document referred to goes by at that moment, and the class gets the name that
its own document goes by when it is drafted. Both agree in the end when these are the same document
and its name does not change once it has a place: a draft keeps the names of all documents with
places, and every step keeps them but the naming of an extension.
-/

namespace SchemaClasses

/-- The type name that a leaf gives the class it refers to. -/
def Leaf.className? : Leaf → Option String
  | reference _ name _ => some name
  | inlineObject _ name => some name
  | _ => none

theorem Leaf.target?_isSome (leaf : Leaf) : leaf.target?.isSome = leaf.className?.isSome := by
  cases leaf <;> rfl

namespace Descriptor

/-- The facets of the leaf inside all containers. -/
def coreFacets : Descriptor → Facets
  | leaf _ facets => facets
  | array item _ => item.coreFacets
  | dictionary value _ => value.coreFacets

/-- The path of the leaf of a type that is found at a path. -/
def corePath (path : String) : Descriptor → String
  | leaf _ _ => path
  | array item _ => item.corePath (path ++ ".items")
  | dictionary value _ => value.corePath (path ++ ".additionalProperties")

@[simp] theorem corePath_documented (type : Descriptor) (path : String) (outer : Documentation) :
    (type.documented outer).corePath path = type.corePath path := by
  cases type <;> rfl

/-- The leaf of a type is spelled as the class that it names. -/
def Spelled (naming : Naming) (type : Descriptor) : Prop :=
  ∀ name, type.core.className? = some name →
    type.coreFacets.valueType = naming.qualified name ∧
    type.coreFacets.readerType = naming.handler name

variable {naming : Naming} {type : Descriptor}

theorem spelled_of_none (h : type.core.className? = none) : type.Spelled naming := by
  intro name hname
  simp [h] at hname

theorem Spelled.documented (h : type.Spelled naming) (outer : Documentation) :
    (type.documented outer).Spelled naming := by
  intro name hname
  rw [core_documented] at hname
  have hspelled := h name hname
  cases type <;> exact hspelled

theorem Spelled.arrayOf (h : type.Spelled naming) (default : Option Json) :
    (arrayOf type default).Spelled naming := h

theorem Spelled.dictionaryOf (h : type.Spelled naming) : (dictionaryOf type).Spelled naming := h

theorem spelled_inlineObject (naming : Naming) (target : ClassId) (name : String)
    (isOptional : Bool) : (inlineObject naming target name isOptional).Spelled naming := by
  intro other hother
  obtain rfl := Option.some.inj hother
  exact ⟨rfl, rfl⟩

theorem spelled_reference (naming : Naming) (target : ClassId) (name : String)
    (isAsset isOptional : Bool) :
    (reference naming target name isAsset isOptional).Spelled naming := by
  intro other hother
  rw [core_reference] at hother
  obtain rfl := Option.some.inj hother
  cases isAsset <;> exact ⟨rfl, rfl⟩

end Descriptor

namespace Draft

/-- A place is that of a document, and a name is what the document goes by. -/
structure Calls (draft : Draft) (id : ClassId) (document : Document) (name : String) : Prop where
  holds : draft.Holds id document.key
  knows : draft.catalog.Knows document
  name : draft.displayName document = name

/-- What is known and held stays so, and what is known and has a place keeps its name. -/
structure Keeps (before after : Draft) : Prop where
  within : before.Within after
  displayName : ∀ {document : Document} {id}, before.catalog.Knows document →
    before.Holds id document.key → after.displayName document = before.displayName document

variable {draft after : Draft}

theorem Calls.mono {id : ClassId} {document : Document} {name : String}
    (h : draft.Calls id document name) (keeps : draft.Keeps after) :
    after.Calls id document name where
  holds := keeps.within.holds h.holds
  knows := keeps.within.knows h.knows
  name := (keeps.displayName h.knows h.holds).trans h.name

namespace Keeps

theorem of_names (within : draft.Within after) (hsettings : after.settings = draft.settings)
    (hnames : after.extensionNames = draft.extensionNames) : draft.Keeps after := by
  refine ⟨within, fun {document id} _ _ => ?_⟩
  rw [Draft.displayName, Draft.displayName, hsettings, hnames]

end Keeps

theorem Grows.keeps (h : draft.Grows after) : draft.Keeps after :=
  .of_names h.within h.settings h.extensionNames

theorem Grows.displayName (h : draft.Grows after) (document : Document) :
    after.displayName document = draft.displayName document := by
  rw [Draft.displayName, Draft.displayName, h.settings, h.extensionNames]

end Draft

namespace Drafting

/-- A type at a path in the class of a document names the class that its leaf refers to after the
document referred to, or after the object declared there, unless that is a link. -/
structure Named (owner : Document) (draft : Draft) (path : String) (type : Descriptor) : Prop where
  reference : ∀ {target name isAsset}, type.core = .reference target name isAsset →
    ∃ document, draft.Calls target document name
  inlineObject : ∀ {target name}, type.core = .inlineObject target name →
    ∃ document, document.key = owner.key ++ "#inline/" ++ type.corePath path ∧
      draft.catalog.Knows document ∧ (document.link? = none → draft.Calls target document name)

variable {owner : Document} {draft after : Draft} {path : String} {type : Descriptor}

namespace Named

theorem of_none (h : type.core.className? = none) : Named owner draft path type := by
  constructor
  · intro target name isAsset hcore
    simp [hcore, Leaf.className?] at h
  · intro target name hcore
    simp [hcore, Leaf.className?] at h

theorem mono (h : Named owner draft path type) (keeps : draft.Keeps after) :
    Named owner after path type := by
  constructor
  · intro target name isAsset hcore
    obtain ⟨document, hcalls⟩ := h.reference hcore
    exact ⟨document, hcalls.mono keeps⟩
  · intro target name hcore
    obtain ⟨document, hkey, known, hcalls⟩ := h.inlineObject hcore
    exact ⟨document, hkey, keeps.within.knows known, fun hlink => (hcalls hlink).mono keeps⟩

theorem documented (h : Named owner draft path type) (outer : Documentation) :
    Named owner draft path (type.documented outer) := by
  constructor
  · intro target name isAsset hcore
    rw [Descriptor.core_documented] at hcore
    exact h.reference hcore
  · intro target name hcore
    rw [Descriptor.core_documented] at hcore
    rw [Descriptor.corePath_documented]
    exact h.inlineObject hcore

theorem arrayOf (h : Named owner draft (path ++ ".items") type) (default : Option Json) :
    Named owner draft path (.arrayOf type default) :=
  ⟨h.reference, h.inlineObject⟩

theorem dictionaryOf (h : Named owner draft (path ++ ".additionalProperties") type) :
    Named owner draft path (.dictionaryOf type) :=
  ⟨h.reference, h.inlineObject⟩

end Named

/-- The leaf of every type that is found is spelled as it is named. -/
theorem Types.spelled {owner : Owner} {path : String} {fragment : Json} {usage : Usage}
    {found : Option Descriptor} (h : Types owner path fragment usage draft found after) :
    ∀ type, found = some type → type.Spelled after.naming := by
  induction h with
  | empty => simp
  | enumeration _ htype =>
    rintro _ ⟨⟩
    obtain ⟨type, rfl, -⟩ | ⟨fault, rfl, -⟩ := enumerationType_inv htype <;>
      exact Descriptor.spelled_of_none rfl
  | anyItems | anyValues | missing | index | json | circular | unsupported =>
    rintro _ ⟨⟩
    exact Descriptor.spelled_of_none rfl
  | scalar =>
    rintro _ ⟨⟩
    exact Descriptor.spelled_of_none (by cases ‹ScalarType› <;> rfl)
  | array _ _ ih =>
    intro type htype
    obtain ⟨item, hitem, rfl⟩ := Option.map_eq_some_iff.mp htype
    exact ((ih item hitem).arrayOf _).documented _
  | @inlineObject _ _ _ _ document _ id _ _ _ _ =>
    rintro _ ⟨⟩
    cases id with
    | none => exact Descriptor.spelled_of_none rfl
    | some target => exact (Descriptor.spelled_inlineObject _ _ _ _).documented _
  | @dictionary _ _ _ _ _ value _ _ _ _ ih =>
    rintro _ ⟨⟩
    cases value with
    | none => exact Descriptor.spelled_of_none rfl
    | some value => exact (ih value rfl).dictionaryOf.documented _
  | @reference _ _ _ _ _ _ _ id _ _ _ _ _ =>
    rintro _ ⟨⟩
    cases id with
    | none => exact Descriptor.spelled_of_none rfl
    | some target => exact (Descriptor.spelled_reference _ _ _ _ _).documented _
  | @followed _ _ _ _ _ _ _ type _ _ _ _ _ _ ih =>
    rintro _ ⟨⟩
    cases type with
    | none => exact Descriptor.spelled_of_none rfl
    | some type => exact (ih type rfl).documented _
  | composite _ _ ih =>
    intro type htype
    obtain ⟨inner, hinner, rfl⟩ := Option.map_eq_some_iff.mp htype
    exact (ih inner hinner).documented _

/-- The leaf of every type that is found is named as it should be. -/
theorem Types.named {owner : Owner} {path : String} {fragment : Json} {usage : Usage}
    {found : Option Descriptor} (h : Types owner path fragment usage draft found after) :
    ∀ type, found = some type → Named owner.document after path type := by
  induction h with
  | empty => simp
  | enumeration _ htype =>
    rintro _ ⟨⟩
    obtain ⟨type, rfl, -⟩ | ⟨fault, rfl, -⟩ := enumerationType_inv htype <;> exact .of_none rfl
  | anyItems | anyValues | missing | index | json | circular | unsupported =>
    rintro _ ⟨⟩
    exact .of_none rfl
  | scalar =>
    rintro _ ⟨⟩
    exact .of_none (by cases ‹ScalarType› <;> rfl)
  | array _ _ ih =>
    intro type htype
    obtain ⟨item, hitem, rfl⟩ := Option.map_eq_some_iff.mp htype
    exact ((ih item hitem).arrayOf _).documented _
  | @inlineObject path _ _ _ document between id after _ hdocument hid =>
    rintro _ ⟨⟩
    cases id with
    | none => exact .of_none rfl
    | some target =>
      have hinsert := inlineDocument_inv hdocument
      have known := (insert_knows hinsert).mono hid.grows.catalog
      have hkey : document.key = owner.document.key ++ "#inline/" ++ path := by
        rw [(insert_inv hinsert).1, Catalog.insert_key]
      refine Named.documented ⟨fun hcore => (by cases hcore), fun hcore => ?_⟩ _
      obtain ⟨rfl, rfl⟩ := Leaf.inlineObject.inj hcore
      refine ⟨document, hkey, known, fun hlink => ?_⟩
      exact ⟨hid.holds_self hlink, known, hid.grows.displayName document⟩
  | @dictionary _ _ _ _ _ value _ _ _ _ ih =>
    rintro _ ⟨⟩
    cases value with
    | none => exact .of_none rfl
    | some value => exact (ih value rfl).dictionaryOf.documented _
  | @reference _ _ _ _ _ document between id _ _ hleads hclass hid =>
    rintro _ ⟨⟩
    cases id with
    | none => exact .of_none rfl
    | some target =>
      have known := (load_knows hleads.loads).mono hid.grows.catalog
      have holds := hid.holds_self (Document.link?_of_isClassLike hclass)
      refine Named.documented ⟨fun hcore => ?_, fun hcore => ?_⟩ _
      · rw [Option.map_some, Option.getD_some, Descriptor.core_reference] at hcore
        obtain ⟨rfl, rfl, -⟩ := Leaf.reference.inj hcore
        exact ⟨document, holds, known, hid.grows.displayName document⟩
      · rw [Option.map_some, Option.getD_some, Descriptor.core_reference] at hcore
        cases hcore
  | @followed _ _ _ _ _ _ _ type inner _ _ _ _ _ ih =>
    rintro _ ⟨⟩
    cases type with
    | none => exact .of_none rfl
    | some type =>
      refine Named.documented ?_ _
      exact (ih type rfl).mono (.of_names (.leave inner _) rfl rfl)
  | composite _ _ ih =>
    intro type htype
    obtain ⟨inner, hinner, rfl⟩ := Option.map_eq_some_iff.mp htype
    exact (ih inner hinner).documented _

theorem Drafted.spelled {document : Document} {drafted : DraftClass}
    (h : Drafted document draft drafted) :
    ∀ type ∈ drafted.body.types, type.Spelled draft.naming := by
  obtain ⟨start, last, ⟨hbody⟩, hwithin⟩ := h
  rw [hwithin.naming]
  refine hbody.forall_types (P := fun draft type => type.Spelled draft.naming)
    (fun htype => htype.spelled _ rfl) fun hgrows hspelled => ?_
  rwa [hgrows.naming]

/-- A class has the name that its document goes by, and its members name classes likewise. -/
structure Settles (document : Document) (draft : Draft) (drafted : DraftClass) : Prop where
  typeName : drafted.typeName = draft.displayName document
  named : ∀ {base declared members}, drafted.body = .object base declared members →
    ∀ p ∈ members, Named document draft p.name p.type

theorem Classes.settles {document : Document} {drafted : DraftClass}
    (h : Classes document draft drafted after) : Settles document after drafted := by
  obtain ⟨hbody⟩ := h
  refine ⟨(hbody.grows.displayName document).symm, fun {base declared members} hobject => ?_⟩
  obtain ⟨-, -, between, -, hmembers⟩ := hbody.object_inv hobject
  exact hmembers.forall_types (P := Named document) (fun htype => htype.named _ rfl)
    fun hgrows hnamed => hnamed.mono hgrows.keeps

theorem Settles.mono {document : Document} {drafted : DraftClass} {id : ClassId}
    (h : Settles document draft drafted) (keeps : draft.Keeps after)
    (known : draft.catalog.Knows document) (holds : draft.Holds id document.key) :
    Settles document after drafted where
  typeName := h.typeName.trans (keeps.displayName known holds).symm
  named hobject p hp := (h.named hobject p hp).mono keeps

end Drafting

namespace Draft

/-- Every class that is drafted is called in the types of all classes what it is called itself. -/
def Settled (draft : Draft) : Prop :=
  ∀ place ∈ draft.places, ∀ drafted, place.drafted = some drafted →
    Drafting.Settles place.document draft drafted

variable {draft after : Draft}

theorem Settled.keeps (h : draft.Settled) (documented : draft.Documented)
    (keeps : draft.Keeps after)
    (hplaces : ∀ place ∈ after.places, place ∈ draft.places ∨ place.drafted = none) :
    after.Settled := by
  intro place hplace drafted hdrafted
  rcases hplaces place hplace with hbefore | hnone
  · obtain ⟨id, holds⟩ := holds_of_mem hbefore
    exact (h place hbefore drafted hdrafted).mono keeps (documented place hbefore) holds
  · simp [hnone] at hdrafted

theorem Grows.mem_places (h : draft.Grows after) :
    ∀ place ∈ after.places, place ∈ draft.places ∨ place.drafted = none := by
  obtain ⟨added, hplaces, -⟩ := h.places
  intro place hplace
  rw [hplaces, List.mem_append] at hplace
  rcases hplace with hbefore | hnew
  · exact .inl hbefore
  · obtain ⟨document, -, rfl⟩ := List.mem_map.mp hnew
    exact .inr rfl

end Draft

namespace Drafting

/-- Only documents that the catalog knows are resolved, and no document that has a place is named
otherwise than before. -/
def Policy.steady : Policy where
  strangers := False
  renames draft document names :=
    ∀ id, draft.Holds id document.key →
      Draft.displayName
        { draft with extensionNames := Ordered.put draft.extensionNames document.key names }
        document = draft.displayName document

variable {draft after : Draft}

theorem Step.keeps (h : Step .steady draft after) : draft.Keeps after := by
  have hwithin := h.within
  cases h with
  | find | enter | leave | nowhere | resolved => exact .of_names hwithin rfl rfl
  | intern _ hid => exact hid.grows.keeps
  | drafted _ _ hclass =>
    exact .of_names hwithin hclass.grows.settings hclass.grows.extensionNames
  | @name document names known hsame =>
    refine ⟨hwithin, fun {other id} hother holds => ?_⟩
    by_cases hkey : other.key = document.key
    · obtain rfl := hother.unique (known.resolve_left not_false) hkey
      exact hsame id holds
    · have hnames : Ordered.get? (Ordered.put draft.extensionNames document.key names) other.key =
          Ordered.get? draft.extensionNames other.key := by
        rw [Ordered.get?_put, if_neg (Ne.symm hkey)]
      simp only [Draft.displayName, hnames]

theorem Step.settled (h : Step .steady draft after) (documented : draft.Documented)
    (settled : draft.Settled) : after.Settled := by
  have hkeeps := h.keeps
  cases h with
  | find | enter | leave | name | nowhere | resolved =>
    exact settled.keeps documented hkeeps fun place hplace => .inl hplace
  | intern _ hid => exact settled.keeps documented hkeeps hid.grows.mem_places
  | @drafted id rest place drafted inner hpending hplace hclass =>
    have hinner : inner.Settled := by
      refine settled.keeps documented ?_ hclass.grows.mem_places
      exact .of_names ⟨hclass.grows.naming, hclass.grows.within.knows, hclass.grows.within.holds⟩
        hclass.grows.settings hclass.grows.extensionNames
    have hfill : inner.Keeps
        (Draft.fill { inner with catalog := inner.catalog.leave } id drafted) := by
      refine .of_names ?_ rfl rfl
      exact (Draft.Within.leave inner inner.following).trans (Draft.fill_within _ id drafted)
    have hin : inner.places[id]? = some place := hclass.grows.getElem? hplace
    have hknown := hclass.documented documented
    intro other hother found hfound
    have hmem := List.mem_of_getElem? hin
    obtain hother | rfl := Draft.mem_fill hin hother
    · obtain ⟨at_, holds⟩ := Draft.holds_of_mem hother
      exact (hinner other hother found hfound).mono hfill (hknown other hother) holds
    · obtain rfl := Option.some.inj hfound
      obtain ⟨at_, holds⟩ := Draft.holds_of_mem hmem
      exact hclass.settles.mono hfill (hknown place hmem) holds

theorem Steps.settled (h : Steps .steady draft after) (documented : draft.Documented)
    (settled : draft.Settled) : after.Settled := by
  induction h with
  | refl => exact settled
  | tail hsteps step ih => exact step.settled (Steps.documented hsteps not_false documented) ih

end Drafting

end SchemaClasses
