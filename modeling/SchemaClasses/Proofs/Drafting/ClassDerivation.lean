import SchemaClasses.Proofs.Drafting.Derivation

/-!
# Derivations of classes

The relations of a fragment and its type go on to the members of an object, its base class, what a
schema turns into, and the class of a document. A class is drafted in the context of its document;
its base comes before its members, and its members come in the order of the schema.
-/

namespace SchemaClasses.Drafting

/-- The base class that an entry of `allOf` names, in the schema of a document. -/
inductive Names (document : Document) (entry : Json) (draft : Draft) :
    Option ClassId → Draft → Prop
  | missing {reference after} : Link.ofEntry entry = .reference reference →
      load reference draft = some (none, after) → Names document entry draft none after
  | reference {reference base between id after} : Link.ofEntry entry = .reference reference →
      load reference draft = some (some base, between) → Interns base between id after →
      Names document entry draft id after
  | written {body base between id after} : Link.ofEntry entry = .entry body →
      insert (document.firstEntry body) draft = some (base, between) →
      Interns base between id after → Names document entry draft id after

/-- The base class of a document, which the first entry of `allOf` names. -/
inductive Derives (owner : Owner) (draft : Draft) : Option ClassId → Draft → Prop
  | root : Derives owner draft none draft
  | only {first id after} : owner.document.body.array? "allOf" = some [first] →
      Names owner.document first draft id after → Derives owner draft id after
  | first {first second rest id after} :
      owner.document.body.array? "allOf" = some (first :: second :: rest) →
      Names owner.document first
        { draft with
          catalog := draft.catalog.warn (.severalBases owner.typeName (rest.length + 2)) }
        id after → Derives owner draft id after

/-- The members that declared properties become. -/
inductive Members (owner : Owner) : List (String × Json) → Draft → List Property → Draft → Prop
  | nil {draft} : Members owner [] draft [] draft
  | implied {name fragment rest draft members after} : name ∈ impliedProperties →
      Members owner rest draft members after →
      Members owner ((name, fragment) :: rest) draft members after
  | stub {name fragment rest draft between members after} : name ∉ impliedProperties →
      Types owner name fragment ⟨owner.document.requires name, fragment.get? "default"⟩
        draft none between →
      Members owner rest between members after →
      Members owner ((name, fragment) :: rest) draft members after
  | member {name fragment rest draft type between members after} : name ∉ impliedProperties →
      Types owner name fragment ⟨owner.document.requires name, fragment.get? "default"⟩
        draft (some type) between →
      Members owner rest between members after →
      Members owner ((name, fragment) :: rest) draft
        (⟨name, Naming.memberName name, type, owner.document.requires name⟩ :: members) after

/-- What the schema of an owner turns into. -/
inductive Bodies (owner : Owner) (draft : Draft) : DraftBody → Draft → Prop
  | object {base between members after} : SchemaShape.of owner.document.body = .object →
      Derives owner draft base between →
      Members owner owner.document.properties between members after →
      Bodies owner draft (.object base owner.document.propertyNames members) after
  | constants {listsItems body after} :
      SchemaShape.of owner.document.body = (if listsItems then .enumeration else .anyOf) →
      enumerationBody owner listsItems draft = some (body, after) →
      Bodies owner draft body after
  | value {type after} : SchemaShape.of owner.document.body ≠ .object →
      Types owner owner.typeName owner.document.body
        ⟨true, owner.document.body.get? "default"⟩ draft (some type) after →
      Bodies owner draft (.value type) after
  | untyped {after} : SchemaShape.of owner.document.body ≠ .object →
      Types owner owner.typeName owner.document.body
        ⟨true, owner.document.body.get? "default"⟩ draft none after →
      Bodies owner draft .unsupported after
  | unsupported {warning} : SchemaShape.of owner.document.body ≠ .object →
      Bodies owner draft .unsupported
        { draft with catalog := draft.catalog.warn warning }

/-- The class of a document. -/
inductive Classes (document : Document) (draft : Draft) : DraftClass → Draft → Prop
  | intro {body after} : Bodies ⟨document, draft.displayName document⟩ draft body after →
      Classes document draft
        { source := document.key
          title := document.title?
          typeName := draft.displayName document
          extensionName :=
            (Ordered.get? after.extensionNames document.key).map (·.extensionName)
          doc := .ofFragment document.body
          body := body } after

section

variable {owner : Owner} {document : Document} {draft after : Draft} {depth : Nat}

theorem baseClass_names {entry : Json} {id : Option ClassId}
    (h : baseClass depth document entry draft = some (id, after)) :
    Names document entry draft id after := by
  unfold baseClass at h
  cases hlink : Link.ofEntry entry with
  | reference reference =>
    simp only [hlink] at h
    obtain ⟨base, between, hload, h⟩ := bind_inv h
    cases base with
    | none =>
      obtain ⟨rfl, rfl⟩ := pure_inv h
      exact .missing hlink hload
    | some base => exact .reference hlink hload (intern_interns h)
  | entry body =>
    simp only [hlink] at h
    obtain ⟨found, between, hfound, h⟩ := bind_inv h
    obtain ⟨base, hinsert, rfl⟩ := map_inv hfound
    exact .written hlink hinsert (intern_interns h)

theorem baseOf_derives {id : Option ClassId}
    (h : baseOf depth owner.document owner.typeName draft = some (id, after)) :
    Derives owner draft id after := by
  unfold baseOf at h
  cases hentries : owner.document.body.array? "allOf" with
  | none =>
    simp only [hentries] at h
    obtain ⟨rfl, rfl⟩ := pure_inv h
    exact .root
  | some entries =>
    simp only [hentries] at h
    match entries, h with
    | [], h =>
      obtain ⟨rfl, rfl⟩ := pure_inv h
      exact .root
    | [first], h => exact .only hentries (baseClass_names h)
    | first :: second :: rest, h =>
      obtain ⟨_, between, hwarn, h⟩ := bind_inv h
      obtain rfl := warn_inv hwarn
      exact .first hentries (baseClass_names h)

theorem propertiesOf_members {declared : List (String × Json)} {members : List Property}
    (h : propertiesOf depth owner declared draft = some (members, after)) :
    Members owner declared draft members after := by
  induction declared generalizing draft members with
  | nil =>
    obtain ⟨rfl, rfl⟩ := pure_inv h
    exact .nil
  | cons entry rest ih =>
    obtain ⟨name, fragment⟩ := entry
    rw [propertiesOf] at h
    split at h
    · exact .implied ‹_› (ih h)
    · obtain ⟨type, between, htype, h⟩ := bind_inv h
      cases type with
      | none => exact .stub ‹_› (fragmentType_types htype) (ih h)
      | some type =>
        obtain ⟨members, last, hrest, h⟩ := bind_inv h
        obtain ⟨rfl, rfl⟩ := pure_inv h
        exact .member ‹_› (fragmentType_types htype) (ih hrest)

theorem valueBody_inv {body : DraftBody} (h : valueBody depth owner draft = some (body, after)) :
    ∃ type, propertyType depth owner owner.typeName owner.document.body true draft =
      some (type, after) ∧ body = type.elim .unsupported .value := by
  obtain ⟨type, between, htype, h⟩ := bind_inv h
  cases type <;> obtain ⟨rfl, rfl⟩ := pure_inv h <;> exact ⟨_, htype, rfl⟩

theorem valueBody_bodies {body : DraftBody}
    (hshape : SchemaShape.of owner.document.body ≠ .object)
    (h : valueBody depth owner draft = some (body, after)) : Bodies owner draft body after := by
  obtain ⟨type, htype, rfl⟩ := valueBody_inv h
  cases type with
  | none => exact .untyped hshape (fragmentType_types htype)
  | some type => exact .value hshape (fragmentType_types htype)

theorem unsupportedBody_bodies {warning : Warning} {body : DraftBody}
    (hshape : SchemaShape.of owner.document.body ≠ .object)
    (h : unsupportedBody warning draft = some (body, after)) : Bodies owner draft body after := by
  obtain ⟨rfl, rfl⟩ := warn_pure_inv h
  exact .unsupported hshape

theorem bodyOf_bodies {body : DraftBody} (h : bodyOf depth owner draft = some (body, after)) :
    Bodies owner draft body after := by
  unfold bodyOf at h
  cases hshape : SchemaShape.of owner.document.body <;> simp only [hshape] at h
  case object =>
    obtain ⟨base, between, hbase, h⟩ := bind_inv h
    obtain ⟨members, last, hmembers, h⟩ := bind_inv h
    obtain ⟨rfl, rfl⟩ := pure_inv h
    exact .object hshape (baseOf_derives hbase) (propertiesOf_members hmembers)
  case anyOf =>
    split at h
    · exact @Bodies.constants _ _ false _ _ hshape h
    · exact unsupportedBody_bodies (by simp [hshape]) h
  case enumeration =>
    split at h
    · exact @Bodies.constants _ _ true _ _ hshape h
    · exact unsupportedBody_bodies (by simp [hshape]) h
  case scalar => exact valueBody_bodies (by simp [hshape]) h
  case array => exact valueBody_bodies (by simp [hshape]) h
  all_goals exact unsupportedBody_bodies (by simp [hshape]) h

theorem classOf_classes {drafted : DraftClass}
    (h : classOf depth document draft = some (drafted, after)) :
    Classes document draft drafted after := by
  unfold classOf at h
  rw [get_bind] at h
  obtain ⟨body, between, hbody, h⟩ := bind_inv h
  rw [get_bind] at h
  obtain ⟨rfl, rfl⟩ := pure_inv h
  exact .intro (bodyOf_bodies hbody)

theorem enumerationBody_inv {listsItems : Bool} {body : DraftBody}
    (h : enumerationBody owner listsItems draft = some (body, after)) :
    ((∃ type, body = .enumeration type) ∨ body = .unsupported) ∧
      (after = draft ∨
        ∃ warning, after = { draft with catalog := draft.catalog.warn warning }) := by
  unfold enumerationBody at h
  rw [get_bind] at h
  obtain ⟨found, between, hread, hnext⟩ := bind_inv h
  obtain ⟨type, -, rfl, rfl⟩ | ⟨fault, -, rfl, rfl⟩ := enumerationOf_inv hread
  · dsimp only at hnext
    split at hnext
    · obtain ⟨rfl, rfl⟩ := warn_pure_inv hnext
      exact ⟨.inr rfl, .inr ⟨_, rfl⟩⟩
    · obtain ⟨rfl, rfl⟩ := pure_inv hnext
      exact ⟨.inl ⟨_, rfl⟩, .inl rfl⟩
  · obtain ⟨rfl, rfl⟩ := pure_inv hnext
    exact ⟨.inr rfl, .inr ⟨_, rfl⟩⟩

theorem Bodies.object_inv {body : DraftBody} {base : Option ClassId} {declared : List String}
    {members : List Property} (h : Bodies owner draft body after)
    (hobject : body = .object base declared members) :
    SchemaShape.of owner.document.body = .object ∧ declared = owner.document.propertyNames ∧
      ∃ between, Derives owner draft base between ∧
        Members owner owner.document.properties between members after := by
  cases h with
  | object hshape hbase hmembers =>
    obtain ⟨rfl, rfl, rfl⟩ := DraftBody.object.inj hobject
    exact ⟨hshape, rfl, _, hbase, hmembers⟩
  | constants _ hbody =>
    obtain ⟨⟨e, rfl⟩ | rfl, -⟩ := enumerationBody_inv hbody <;> cases hobject
  | value | untyped | unsupported => cases hobject

end

end SchemaClasses.Drafting
