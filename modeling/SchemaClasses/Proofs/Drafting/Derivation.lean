import SchemaClasses.Proofs.Drafting.Inversion

/-!
# Derivations

What an action on a draft does is said again without a bound on its depth: following aliases,
interning a document, and finding the type of a fragment are relations between the draft before, the
result and the draft after. Every end of an action has a derivation, so a statement about ends is
proved by induction on derivations, with one case for each way in which a fragment can get its type.
-/

namespace SchemaClasses.Drafting

/-- Following the links of a document, with the documents with keys in `seen` behind it, ends at a
document that stands for itself, or nowhere. -/
inductive Unaliases : List String → Document → Draft → Option Document → Draft → Prop
  | circle {seen document draft} : document.key ∈ seen →
      Unaliases seen document draft none
        { draft with catalog := draft.catalog.warn (.aliasOfItself document.key) }
  | itself {seen document draft} : document.key ∉ seen → document.link? = none →
      Unaliases seen document draft (some document) draft
  | lost {seen document link draft after} : document.key ∉ seen → document.link? = some link →
      target document link draft = some (none, after) → Unaliases seen document draft none after
  | next {seen document link next own draft between after} : document.key ∉ seen →
      document.link? = some link → target document link draft = some (some next, between) →
      Unaliases (document.key :: seen) next between own after →
      Unaliases seen document draft own after

theorem unaliasFrom_unaliases {depth : Nat} {seen : List String} {document : Document}
    {draft after : Draft} {own : Option Document}
    (h : unaliasFrom depth seen document draft = some (own, after)) :
    Unaliases seen document draft own after := by
  induction depth generalizing seen document draft with
  | zero => cases h
  | succ depth ih =>
    rw [unaliasFrom] at h
    split at h
    · obtain ⟨rfl, rfl⟩ := warn_pure_inv h
      exact .circle ‹_›
    · rename_i hseen
      cases hlink : document.link? with
      | none =>
        simp only [hlink] at h
        obtain ⟨rfl, rfl⟩ := pure_inv h
        exact .itself hseen hlink
      | some link =>
        simp only [hlink] at h
        obtain ⟨found, between, htarget, h⟩ := bind_inv h
        cases found with
        | none =>
          obtain ⟨rfl, rfl⟩ := pure_inv h
          exact .lost hseen hlink htarget
        | some next => exact .next hseen hlink htarget (ih h)

/-- Interning a document gives the class of the document that it stands for. -/
inductive Interns (document : Document) (draft : Draft) : Option ClassId → Draft → Prop
  | lost {after} : Unaliases [] document draft none after → Interns document draft none after
  | known {own id after} : Unaliases [] document draft (some own) after →
      after.idOf? own.key = some id → Interns document draft (some id) after
  | added {own between} : Unaliases [] document draft (some own) between →
      between.idOf? own.key = none →
      Interns document draft (some between.places.length) (between.append own)

theorem intern_interns {depth : Nat} {document : Document} {draft after : Draft}
    {id : Option ClassId} (h : intern depth document draft = some (id, after)) :
    Interns document draft id after := by
  unfold intern at h
  obtain ⟨own, between, hown, h⟩ := bind_inv h
  have hown := unaliasFrom_unaliases hown
  cases own with
  | none =>
    obtain ⟨rfl, rfl⟩ := pure_inv h
    exact .lost hown
  | some own =>
    simp only [get_bind] at h
    cases hid : between.idOf? own.key with
    | some known =>
      simp only [hid] at h
      obtain ⟨rfl, rfl⟩ := pure_inv h
      exact .known hown hid
    | none =>
      simp only [hid] at h
      cases h
      exact .added hown hid

/-- A reference leads to a document that stands for more than an index or any JSON value. -/
structure LeadsTo (reference : String) (draft : Draft) (document : Document) (after : Draft) :
    Prop where
  loads : load reference draft = some (some document, after)
  notIndex : document.title? ≠ some indexTitle
  notJson : after.displayName document ≠ Naming.jsonValue

/-- The type of a fragment of an owner at a path, for each way in which a fragment can get one. -/
inductive Types (owner : Owner) :
    String → Json → Usage → Draft → Option Descriptor → Draft → Prop
  | empty {path fragment usage draft} : PropertyShape.of fragment = .empty →
      Types owner path fragment usage draft none draft
  | enumeration {path fragment usage draft type after} :
      PropertyShape.of fragment = .enumeration →
      enumerationType owner path fragment usage draft = some (type, after) →
      Types owner path fragment usage draft (some (type.documented (.ofFragment fragment))) after
  | anyItems {path fragment usage draft} : PropertyShape.of fragment = .array none →
      Types owner path fragment usage draft
        (some ((Descriptor.arrayOf (.anyJson false) usage.default).documented
          (.ofFragment fragment))) draft
  | array {path fragment items usage draft item after} :
      PropertyShape.of fragment = .array (some items) →
      Types owner (path ++ ".items") items (.ofItems items) draft item after →
      Types owner path fragment usage draft
        (item.map fun item => (Descriptor.arrayOf item usage.default).documented
          (.ofFragment fragment)) after
  | scalar {path fragment kind usage draft} : PropertyShape.of fragment = .scalar kind →
      Types owner path fragment usage draft
        (some ((Descriptor.scalar kind usage.isOptional usage.default).documented
          (.ofFragment fragment))) draft
  | inlineObject {path fragment usage draft document between id after} :
      PropertyShape.of fragment = .inlineObject →
      inlineDocument owner path fragment draft = some (document, between) →
      Interns document between id after →
      Types owner path fragment usage draft
        (some (((id.map fun target => Descriptor.inlineObject after.naming target
          (between.displayName document) usage.isOptional).getD
            (.anyJson usage.isOptional)).documented (.ofFragment fragment))) after
  | anyValues {path fragment values usage draft} :
      PropertyShape.of fragment = .dictionary values → values.asBool? = some true →
      Types owner path fragment usage draft
        (some ((Descriptor.dictionaryOf (.anyJson false)).documented (.ofFragment fragment))) draft
  | dictionary {path fragment values usage draft value after} :
      PropertyShape.of fragment = .dictionary values → values.asBool? ≠ some true →
      Types owner (path ++ ".additionalProperties") values .ofValues draft value after →
      Types owner path fragment usage draft
        (some ((Descriptor.dictionaryOf (value.getD (.anyJson false))).documented
          (.ofFragment fragment))) after
  | missing {path fragment reference usage draft between} :
      PropertyShape.of fragment = .reference reference →
      load reference draft = some (none, between) →
      Types owner path fragment usage draft
        (some ((Descriptor.anyJson usage.isOptional).documented (.ofFragment fragment)))
        { between with
          catalog := between.catalog.warn (.unloadable (owner.label path) reference) }
  | index {path fragment reference usage draft document after} :
      PropertyShape.of fragment = .reference reference →
      load reference draft = some (some document, after) → document.title? = some indexTitle →
      Types owner path fragment usage draft
        (some (Descriptor.index.documented (.ofFragment fragment))) after
  | json {path fragment reference usage draft document after} :
      PropertyShape.of fragment = .reference reference →
      load reference draft = some (some document, after) →
      after.displayName document = Naming.jsonValue →
      Types owner path fragment usage draft
        (some ((Descriptor.anyJson usage.isOptional).documented (.ofFragment fragment))) after
  | reference {path fragment reference usage draft document between id after} :
      PropertyShape.of fragment = .reference reference →
      LeadsTo reference draft document between → isClassLike document.body = true →
      Interns document between id after →
      Types owner path fragment usage draft
        (some (((id.map fun target => Descriptor.reference after.naming target
          (between.displayName document)
          ((document.title?.map between.settings.isAsset).getD false) usage.isOptional).getD
            (.anyJson usage.isOptional)).documented (.ofFragment fragment))) after
  | circular {path fragment reference usage draft document between} :
      PropertyShape.of fragment = .reference reference →
      LeadsTo reference draft document between → isClassLike document.body = false →
      document.key ∈ between.following →
      Types owner path fragment usage draft
        (some ((Descriptor.anyJson usage.isOptional).documented (.ofFragment fragment)))
        { between with
          catalog := between.catalog.warn (.circular (owner.label path) reference) }
  | followed {path fragment reference usage draft document between type inner} :
      PropertyShape.of fragment = .reference reference →
      LeadsTo reference draft document between → isClassLike document.body = false →
      document.key ∉ between.following →
      Types owner path document.body (usage.inside document.body)
        { between with
          following := document.key :: between.following
          catalog := between.catalog.enter document } type inner →
      Types owner path fragment usage draft
        (some ((type.getD (.anyJson usage.isOptional)).documented (.ofFragment fragment)))
        { inner with
          following := inner.following.tail
          catalog := inner.catalog.leave }
  | composite {path fragment inner usage draft type after} :
      PropertyShape.of fragment = .composite inner →
      Types owner path inner (usage.inside inner) draft type after →
      Types owner path fragment usage draft
        (type.map (·.documented (.ofFragment fragment))) after
  | unsupported {path fragment usage draft} : PropertyShape.of fragment = .unsupported →
      Types owner path fragment usage draft
        (some ((Descriptor.anyJson usage.isOptional).documented (.ofFragment fragment)))
        { draft with catalog := draft.catalog.warn (.uninterpreted (owner.label path)) }

section

variable {owner : Owner} {path : String} {fragment : Json} {usage : Usage}
variable {draft after : Draft} {depth : Nat}

theorem enumerationType_inv {type : Descriptor}
    (h : enumerationType owner path fragment usage draft = some (type, after)) :
    (∃ e, type = .enumeration draft.naming owner.typeName e usage.isOptional ∧ after = draft) ∨
      ∃ fault, type = .anyJson usage.isOptional ∧
        after = { draft with
          catalog := draft.catalog.warn (.enumeration (owner.label path) fault) } := by
  unfold enumerationType at h
  rw [get_bind] at h
  obtain ⟨found, between, hread, hnext⟩ := bind_inv h
  obtain ⟨e, -, rfl, rfl⟩ | ⟨fault, -, rfl, rfl⟩ := enumerationOf_inv hread
  · obtain ⟨rfl, rfl⟩ := pure_inv hnext
    exact .inl ⟨e, rfl, rfl⟩
  · obtain ⟨rfl, rfl⟩ := pure_inv hnext
    exact .inr ⟨fault, rfl, rfl⟩

theorem arrayType_inv {resolve : Resolve Option} {items : Option Json} {type : Option Descriptor}
    (h : arrayType resolve path items usage draft = some (type, after)) :
    (items = none ∧ type = some (.arrayOf (.anyJson false) usage.default) ∧ after = draft) ∨
      ∃ fragment item, items = some fragment ∧
        resolve (path ++ ".items") fragment (.ofItems fragment) draft = some (item, after) ∧
        type = item.map (.arrayOf · usage.default) := by
  cases items with
  | none =>
    obtain ⟨rfl, rfl⟩ := pure_inv h
    exact .inl ⟨rfl, rfl, rfl⟩
  | some fragment =>
    obtain ⟨item, between, hitem, h⟩ := bind_inv h
    refine .inr ⟨fragment, item, rfl, ?_⟩
    cases item <;> obtain ⟨rfl, rfl⟩ := pure_inv h <;> exact ⟨hitem, rfl⟩

theorem dictionaryType_inv {resolve : Resolve Option} {values : Json} {type : Descriptor}
    (h : dictionaryType resolve path values draft = some (type, after)) :
    (values.asBool? = some true ∧ type = .dictionaryOf (.anyJson false) ∧ after = draft) ∨
      (values.asBool? ≠ some true ∧ ∃ value,
        resolve (path ++ ".additionalProperties") values .ofValues draft = some (value, after) ∧
        type = .dictionaryOf (value.getD (.anyJson false))) := by
  unfold dictionaryType at h
  split at h
  · obtain ⟨rfl, rfl⟩ := pure_inv h
    exact .inl ⟨‹_›, rfl, rfl⟩
  · obtain ⟨value, between, hvalue, h⟩ := bind_inv h
    obtain ⟨rfl, rfl⟩ := pure_inv h
    exact .inr ⟨‹_›, value, hvalue, rfl⟩

theorem inlineObjectType_inv {isOptional : Bool} {type : Descriptor}
    (h : inlineObjectType depth owner path fragment isOptional draft = some (type, after)) :
    ∃ document between id, inlineDocument owner path fragment draft = some (document, between) ∧
      Interns document between id after ∧
      type = (id.map fun target => Descriptor.inlineObject after.naming target
        (between.displayName document) isOptional).getD (.anyJson isOptional) := by
  unfold inlineObjectType at h
  obtain ⟨document, between, hdocument, h⟩ := bind_inv h
  rw [get_bind] at h
  obtain ⟨id, last, hid, h⟩ := bind_inv h
  cases id with
  | none =>
    obtain ⟨rfl, rfl⟩ := pure_inv h
    exact ⟨document, between, none, hdocument, intern_interns hid, rfl⟩
  | some target =>
    simp only [get_bind] at h
    obtain ⟨rfl, rfl⟩ := pure_inv h
    exact ⟨document, between, some target, hdocument, intern_interns hid, rfl⟩

theorem classType_inv {document : Document} {className : String} {isOptional : Bool}
    {type : Descriptor}
    (h : classType depth document className isOptional draft = some (type, after)) :
    ∃ id, Interns document draft id after ∧
      type = (id.map fun target => Descriptor.reference after.naming target className
        ((document.title?.map draft.settings.isAsset).getD false) isOptional).getD
          (.anyJson isOptional) := by
  unfold classType at h
  rw [get_bind] at h
  obtain ⟨id, last, hid, h⟩ := bind_inv h
  cases id with
  | none =>
    obtain ⟨rfl, rfl⟩ := pure_inv h
    exact ⟨none, intern_interns hid, rfl⟩
  | some target =>
    simp only [get_bind] at h
    obtain ⟨rfl, rfl⟩ := pure_inv h
    exact ⟨some target, intern_interns hid, rfl⟩

theorem followedType_inv {resolve : Resolve Option} {reference : String} {document : Document}
    {type : Descriptor}
    (h : followedType resolve owner path reference document usage draft = some (type, after)) :
    (document.key ∈ draft.following ∧ type = .anyJson usage.isOptional ∧
      after = { draft with
        catalog := draft.catalog.warn (.circular (owner.label path) reference) }) ∨
    (document.key ∉ draft.following ∧ ∃ inner last,
      resolve path document.body (usage.inside document.body)
        { draft with
          following := document.key :: draft.following
          catalog := draft.catalog.enter document } = some (inner, last) ∧
      type = inner.getD (.anyJson usage.isOptional) ∧
      after = { last with
        following := last.following.tail
        catalog := last.catalog.leave }) := by
  unfold followedType at h
  rw [get_bind] at h
  split at h
  · obtain ⟨rfl, rfl⟩ := warn_pure_inv h
    exact .inl ⟨‹_›, rfl, rfl⟩
  · obtain ⟨inner, between, hfollow, h⟩ := bind_inv h
    obtain ⟨rfl, rfl⟩ := pure_inv h
    obtain ⟨followed, hcontext, rfl⟩ := whileFollowing_inv hfollow
    obtain ⟨last, hinner, rfl⟩ := inContext_inv hcontext
    exact .inr ⟨‹_›, inner, last, hinner, rfl, rfl⟩

/-- What the induction on the depth of `fragmentType` needs of a fragment that is a reference. -/
theorem referenceType_types {resolve : Resolve Option} {reference : String} {type : Descriptor}
    (hshape : PropertyShape.of fragment = .reference reference)
    (hresolve : ∀ {path fragment usage draft type after},
      resolve path fragment usage draft = some (type, after) →
      Types owner path fragment usage draft type after)
    (h : referenceType depth resolve owner path reference usage draft = some (type, after)) :
    Types owner path fragment usage draft
      (some (type.documented (.ofFragment fragment))) after := by
  unfold referenceType at h
  obtain ⟨found, between, hload, h⟩ := bind_inv h
  cases found with
  | none =>
    obtain ⟨rfl, rfl⟩ := warn_pure_inv h
    exact .missing hshape hload
  | some document =>
    dsimp only at h
    split at h
    · obtain ⟨rfl, rfl⟩ := pure_inv h
      exact .index hshape hload ‹_›
    · rename_i hindex
      rw [get_bind] at h
      split at h
      · obtain ⟨rfl, rfl⟩ := pure_inv h
        exact .json hshape hload ‹_›
      · rename_i hjson
        have hleads : LeadsTo reference draft document between := ⟨hload, hindex, hjson⟩
        split at h
        · obtain ⟨id, hid, rfl⟩ := classType_inv h
          exact .reference hshape hleads ‹_› hid
        · rename_i hclass
          have hclass : isClassLike document.body = false := by simpa using hclass
          obtain ⟨hkey, rfl, rfl⟩ | ⟨hkey, inner, last, hinner, rfl, rfl⟩ := followedType_inv h
          · exact .circular hshape hleads hclass hkey
          · exact .followed hshape hleads hclass hkey (hresolve hinner)

/-- Every end of finding a type has a derivation. -/
theorem fragmentType_types {type : Option Descriptor}
    (h : fragmentType owner depth path fragment usage draft = some (type, after)) :
    Types owner path fragment usage draft type after := by
  induction depth generalizing path fragment usage draft type after with
  | zero => cases h
  | succ depth ih =>
    rw [fragmentType] at h
    cases hshape : PropertyShape.of fragment <;> simp only [hshape] at h <;>
      obtain ⟨bare, between, hbare, h⟩ := bind_inv h
    case empty =>
      obtain ⟨rfl, rfl⟩ := pure_inv hbare
      obtain ⟨rfl, rfl⟩ := pure_inv h
      exact .empty hshape
    case enumeration =>
      obtain ⟨type, htype, rfl⟩ := map_inv hbare
      obtain ⟨rfl, rfl⟩ := pure_inv h
      exact .enumeration hshape htype
    case array items =>
      obtain ⟨rfl, rfl⟩ := pure_inv h
      obtain ⟨rfl, rfl, rfl⟩ | ⟨items, item, rfl, hitem, rfl⟩ := arrayType_inv hbare
      · exact .anyItems hshape
      · rw [Option.map_map]
        exact .array hshape (ih hitem)
    case scalar kind =>
      obtain ⟨rfl, rfl⟩ := pure_inv hbare
      obtain ⟨rfl, rfl⟩ := pure_inv h
      exact .scalar hshape
    case inlineObject =>
      obtain ⟨type, htype, rfl⟩ := map_inv hbare
      obtain ⟨rfl, rfl⟩ := pure_inv h
      obtain ⟨document, between, id, hdocument, hid, rfl⟩ := inlineObjectType_inv htype
      exact .inlineObject hshape hdocument hid
    case dictionary values =>
      obtain ⟨type, htype, rfl⟩ := map_inv hbare
      obtain ⟨rfl, rfl⟩ := pure_inv h
      obtain ⟨hany, rfl, rfl⟩ | ⟨hany, value, hvalue, rfl⟩ := dictionaryType_inv htype
      · exact .anyValues hshape hany
      · exact .dictionary hshape hany (ih hvalue)
    case reference reference =>
      obtain ⟨type, htype, rfl⟩ := map_inv hbare
      obtain ⟨rfl, rfl⟩ := pure_inv h
      exact referenceType_types hshape ih htype
    case composite inner =>
      obtain ⟨rfl, rfl⟩ := pure_inv h
      exact .composite hshape (ih hbare)
    case unsupported =>
      obtain rfl := warn_inv hbare
      obtain ⟨rfl, rfl⟩ := pure_inv h
      exact .unsupported hshape

/-! ### One shape at a time -/

namespace Types

variable {found : Option Descriptor}

/-- How the type of a fragment was found, by the shape of the fragment. -/
theorem inv (h : Types owner path fragment usage draft found after) :
    match PropertyShape.of fragment with
    | .enumeration => ∃ type, enumerationType owner path fragment usage draft = some (type, after) ∧
        found = some (type.documented (.ofFragment fragment))
    | .array (some items) => ∃ item,
        Types owner (path ++ ".items") items (.ofItems items) draft item after ∧
        found = item.map fun item =>
          (Descriptor.arrayOf item usage.default).documented (.ofFragment fragment)
    | .inlineObject => ∃ document between id,
        inlineDocument owner path fragment draft = some (document, between) ∧
        Interns document between id after ∧
        found = some (((id.map fun target => Descriptor.inlineObject after.naming target
          (between.displayName document) usage.isOptional).getD
            (.anyJson usage.isOptional)).documented (.ofFragment fragment))
    | .dictionary values => values.asBool? ≠ some true → ∃ value,
        Types owner (path ++ ".additionalProperties") values .ofValues draft value after ∧
        found = some ((Descriptor.dictionaryOf (value.getD (.anyJson false))).documented
          (.ofFragment fragment))
    | .composite inner => ∃ type, Types owner path inner (usage.inside inner) draft type after ∧
        found = type.map (·.documented (.ofFragment fragment))
    | _ => True := by
  cases h with
  | empty hshape | anyItems hshape | scalar hshape | missing hshape | index hshape | json hshape
  | reference hshape | circular hshape | followed hshape | unsupported hshape =>
    rw [hshape]
    trivial
  | enumeration hshape htype =>
    rw [hshape]
    exact ⟨_, htype, rfl⟩
  | array hshape hitem =>
    rw [hshape]
    exact ⟨_, hitem, rfl⟩
  | inlineObject hshape hdocument hid =>
    rw [hshape]
    exact ⟨_, _, _, hdocument, hid, rfl⟩
  | anyValues hshape hall =>
    rw [hshape]
    exact fun hvalues => absurd hall hvalues
  | dictionary hshape _ hvalue =>
    rw [hshape]
    exact fun _ => ⟨_, hvalue, rfl⟩
  | composite hshape hinner =>
    rw [hshape]
    exact ⟨_, hinner, rfl⟩

theorem enumeration_inv (h : Types owner path fragment usage draft found after)
    (hshape : PropertyShape.of fragment = .enumeration) :
    ∃ type, enumerationType owner path fragment usage draft = some (type, after) ∧
      found = some (type.documented (.ofFragment fragment)) := by
  have hinv := h.inv
  rwa [hshape] at hinv

theorem array_inv {items : Json} (h : Types owner path fragment usage draft found after)
    (hshape : PropertyShape.of fragment = .array (some items)) :
    ∃ item, Types owner (path ++ ".items") items (.ofItems items) draft item after ∧
      found = item.map fun item =>
        (Descriptor.arrayOf item usage.default).documented (.ofFragment fragment) := by
  have hinv := h.inv
  rwa [hshape] at hinv

theorem inlineObject_inv (h : Types owner path fragment usage draft found after)
    (hshape : PropertyShape.of fragment = .inlineObject) :
    ∃ document between id, inlineDocument owner path fragment draft = some (document, between) ∧
      Interns document between id after ∧
      found = some (((id.map fun target => Descriptor.inlineObject after.naming target
        (between.displayName document) usage.isOptional).getD
          (.anyJson usage.isOptional)).documented (.ofFragment fragment)) := by
  have hinv := h.inv
  rwa [hshape] at hinv

theorem dictionary_inv {values : Json} (h : Types owner path fragment usage draft found after)
    (hshape : PropertyShape.of fragment = .dictionary values)
    (hvalues : values.asBool? ≠ some true) :
    ∃ value, Types owner (path ++ ".additionalProperties") values .ofValues draft value after ∧
      found = some ((Descriptor.dictionaryOf (value.getD (.anyJson false))).documented
        (.ofFragment fragment)) := by
  have hinv := h.inv
  rw [hshape] at hinv
  exact hinv hvalues

theorem composite_inv {inner : Json} (h : Types owner path fragment usage draft found after)
    (hshape : PropertyShape.of fragment = .composite inner) :
    ∃ type, Types owner path inner (usage.inside inner) draft type after ∧
      found = type.map (·.documented (.ofFragment fragment)) := by
  have hinv := h.inv
  rwa [hshape] at hinv

end Types

end

end SchemaClasses.Drafting
