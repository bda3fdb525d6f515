import SchemaClasses.Proofs.Catalog.Warnings
import SchemaClasses.Proofs.Drafting.Forwarding

/-!
# Any JSON value, for a reason

A property is any JSON value when its fragment means that, or when the fragment cannot be described.
It means that when following the only entries of `allOf` and the schemas without a class comes to a
reference to the schema of any JSON value, or to a schema that says nothing. In every other case a
warning tells the reason, wherever on the way the description was given up: at the fragment itself,
in the catalog, or at an alias.
-/

namespace SchemaClasses

/-- A warning that tells why the property with a label is any JSON value. -/
def Warning.explains (label : String) : Warning → Bool
  | enumeration other _ | uninterpreted other | unloadable other _ | circular other _ =>
    other = label
  | noContext _ | notLoaded _ _ | noFragment _ _ | aliasOfItself _ => true
  | _ => false

namespace Catalog

/-- A warning has been told since the earlier catalog that explains a property. -/
def Explained (label : String) (earlier later : Catalog) : Prop :=
  ∃ warning ∈ earlier.warningsSince later, warning.explains label = true

variable {label : String} {catalog between after : Catalog}

theorem explained_trans (h : catalog.Grows between) (k : between.Grows after) :
    Explained label catalog after ↔
      Explained label catalog between ∨ Explained label between after := by
  simp only [Explained, warningsSince_trans h k, List.mem_append, or_and_right, exists_or]

@[simp] theorem explained_warn {warning : Warning} :
    Explained label catalog (catalog.warn warning) ↔ warning.explains label = true := by
  simp [Explained, warningsSince_warn]

theorem explained_leave (document : Document) :
    Explained label catalog after.leave ↔ Explained label (catalog.enter document) after :=
  Iff.rfl

theorem OnlyShares.not_explained (h : catalog.OnlyShares after) :
    ¬Explained label catalog after := by
  intro ⟨warning, hwarning, hexplains⟩
  have hshared := h warning hwarning
  cases warning <;> simp [Warning.isShared, Warning.explains] at hshared hexplains

theorem Tells.explained_iff {found : Option Document × Catalog} (h : catalog.Tells found) :
    Explained label catalog found.2 ↔ found.1 = none := by
  rw [← h.lost]
  refine exists_congr fun warning => and_congr_right fun hwarning => ?_
  rcases h.only warning hwarning with hlost | hshared
  · cases warning <;> simp [Warning.isLost, Warning.explains] at hlost ⊢
  · cases warning <;> simp [Warning.isShared, Warning.explains, Warning.isLost] at hshared ⊢

end Catalog

namespace Drafting

open Catalog

/-- A fragment that means any JSON value. -/
inductive Freeform : Json → Draft → Prop
  /-- A reference to the schema of any JSON value. -/
  | named {fragment reference draft document between} :
      PropertyShape.of fragment = .reference reference →
      load reference draft = some (some document, between) →
      between.displayName document = Naming.jsonValue → Freeform fragment draft
  /-- A reference to a schema that says nothing. -/
  | silent {fragment reference draft document between} :
      PropertyShape.of fragment = .reference reference →
      LeadsTo reference draft document between → isClassLike document.body = false →
      document.key ∉ between.following → Hollow document.body → Freeform fragment draft
  | forwards {fragment draft next between} : Forwards fragment draft next between →
      Freeform next between → Freeform fragment draft

variable {owner : Owner} {path reference label : String} {fragment : Json} {usage : Usage}
variable {draft between after : Draft} {document : Document}

/-! ### One shape at a time -/

theorem freeform_iff : Freeform fragment draft ↔
    match PropertyShape.of fragment with
    | .reference reference => ∃ document between,
        load reference draft = some (some document, between) ∧
        (between.displayName document = Naming.jsonValue ∨
          LeadsTo reference draft document between ∧ isClassLike document.body = false ∧
          document.key ∉ between.following ∧ (Hollow document.body ∨ Freeform document.body
            { between with
              following := document.key :: between.following
              catalog := between.catalog.enter document }))
    | .composite inner => Freeform inner draft
    | _ => False := by
  constructor
  · intro h
    cases h with
    | named hshape hload hname =>
      rw [hshape]
      exact ⟨_, _, hload, .inl hname⟩
    | silent hshape hleads hclass hkey hollow =>
      rw [hshape]
      exact ⟨_, _, hleads.loads, .inr ⟨hleads, hclass, hkey, .inl hollow⟩⟩
    | forwards hforwards hnext =>
      cases hforwards with
      | entry hshape => rwa [hshape]
      | reference hshape hleads hclass hkey =>
        rw [hshape]
        exact ⟨_, _, hleads.loads, .inr ⟨hleads, hclass, hkey, .inr hnext⟩⟩
  · intro h
    split at h
    · rename_i reference hshape
      obtain ⟨document, between, hload, hname | ⟨hleads, hclass, hkey, hollow | hnext⟩⟩ := h
      · exact .named hshape hload hname
      · exact .silent hshape hleads hclass hkey hollow
      · exact .forwards (.reference hshape hleads hclass hkey) hnext
    · exact .forwards (.entry ‹_›) h
    · exact h.elim

theorem freeform_reference_iff (hshape : PropertyShape.of fragment = .reference reference)
    (hleads : LeadsTo reference draft document between) :
    Freeform fragment draft ↔ isClassLike document.body = false ∧
      document.key ∉ between.following ∧ (Hollow document.body ∨ Freeform document.body
        { between with
          following := document.key :: between.following
          catalog := between.catalog.enter document }) := by
  rw [freeform_iff, hshape]
  simp [hleads, hleads.loads, hleads.notJson]

/-! ### What is told -/

theorem load_explained {found : Option Document}
    (h : load reference draft = some (found, after)) :
    Explained label draft.catalog after.catalog ↔ found = none := by
  obtain ⟨rfl, rfl⟩ := load_inv h
  exact (draft.catalog.load_tells reference).explained_iff

theorem target_explained {link : Link} (h : target document link draft = some (none, after)) :
    Explained label draft.catalog after.catalog := by
  cases link with
  | reference reference =>
    obtain ⟨inner, hload, rfl⟩ := inContext_inv h
    exact (load_explained hload).mpr rfl
  | entry body =>
    obtain ⟨known, between, hinsert, h⟩ := bind_inv h
    cases (pure_inv h).1

theorem Unaliases.explained {seen : List String} {own : Option Document}
    (h : Unaliases seen document draft own after) (hnone : own = none) :
    Explained label draft.catalog after.catalog := by
  induction h with
  | circle => exact explained_warn.mpr rfl
  | itself => cases hnone
  | lost _ _ htarget => exact target_explained htarget
  | next _ _ htarget hrest ih =>
    rw [explained_trans (target_learns htarget).grows.catalog hrest.grows.catalog]
    exact .inr (ih hnone)

theorem Interns.explained (h : Interns document draft none after) :
    Explained label draft.catalog after.catalog := by
  cases h with
  | lost hown => exact hown.explained rfl

/-- When the type of a fragment is any JSON value, a warning explains it unless the fragment means
that. -/
theorem Types.explained_iff {found : Option Descriptor} {type : Descriptor}
    (h : Types owner path fragment usage draft found after) (hfound : found = some type)
    (hjson : type.leaf? = some .json) :
    Explained (owner.label path) draft.catalog after.catalog ↔ ¬Freeform fragment draft := by
  induction h generalizing type with
  | empty => cases hfound
  | enumeration hshape htype =>
    obtain rfl := Option.some.inj hfound
    rw [Descriptor.leaf?_documented] at hjson
    rw [freeform_iff, hshape]
    obtain ⟨e, rfl, -⟩ | ⟨fault, -, rfl⟩ := enumerationType_inv htype
    · cases hjson
    · simp [Warning.explains]
  | anyItems | anyValues | dictionary | index =>
    obtain rfl := Option.some.inj hfound
    cases hjson
  | array =>
    obtain ⟨item, -, rfl⟩ := Option.map_eq_some_iff.mp hfound
    cases hjson
  | @scalar _ _ kind =>
    obtain rfl := Option.some.inj hfound
    cases kind <;> cases hjson
  | @inlineObject _ _ _ _ document between id _ hshape hdocument hid =>
    obtain rfl := Option.some.inj hfound
    rw [Descriptor.leaf?_documented] at hjson
    cases id with
    | some => cases hjson
    | none =>
      have hgrows := (insert_grows (inlineDocument_inv hdocument)).catalog
      rw [freeform_iff, hshape, explained_trans hgrows hid.grows.catalog]
      simp [hid.explained]
  | missing hshape hload =>
    rw [freeform_iff, hshape, explained_trans (load_grows hload).catalog (Catalog.warn_grows _ _)]
    simp [hload, Warning.explains]
  | json hshape hload hname =>
    rw [load_explained hload]
    simp [Freeform.named hshape hload hname]
  | @reference _ _ reference _ _ document between id _ hshape hleads hclass hid =>
    obtain rfl := Option.some.inj hfound
    rw [Descriptor.leaf?_documented] at hjson
    have hgrows := (load_grows hleads.loads).catalog
    rw [freeform_reference_iff hshape hleads, explained_trans hgrows hid.grows.catalog]
    cases id with
    | some target =>
      cases hasset : (document.title?.map between.settings.isAsset).getD false <;>
        simp [hasset, Descriptor.reference, Descriptor.leaf?] at hjson
    | none => simp [hclass, hid.explained]
  | circular hshape hleads hclass hkey =>
    have hgrows := (load_grows hleads.loads).catalog
    rw [freeform_reference_iff hshape hleads, explained_trans hgrows (Catalog.warn_grows _ _)]
    simp [hkey, Warning.explains]
  | @followed _ _ _ usage _ document between inner last hshape hleads hclass hkey hinner ih =>
    obtain rfl := Option.some.inj hfound
    rw [Descriptor.leaf?_documented] at hjson
    have hgrows := (load_grows hleads.loads).catalog
    rw [freeform_reference_iff hshape hleads,
      explained_trans hgrows (Catalog.leave_grows hinner.grows.catalog),
      load_explained hleads.loads, explained_leave document]
    cases inner with
    | none =>
      obtain rfl := hinner.eq_of_none rfl
      simp [hclass, hkey, hinner.eq_none_iff.mp rfl, (onlyShares_of_log rfl).not_explained]
    | some inner =>
      have hsolid := mt hinner.eq_none_iff.mpr nofun
      have hrest := ih rfl hjson
      simpa [hclass, hkey, hsolid] using hrest
  | composite hshape hinner ih =>
    obtain ⟨inner, rfl, rfl⟩ := Option.map_eq_some_iff.mp hfound
    rw [Descriptor.leaf?_documented] at hjson
    rw [freeform_iff, hshape]
    exact ih rfl hjson
  | unsupported hshape =>
    rw [freeform_iff, hshape]
    simp [Warning.explains]

/-- When the type found for a property is any JSON value, a warning that explains it has been told
while it was looked for, unless the fragment means any JSON value. Then none has been told. -/
theorem propertyType_json_explained {depth : Nat} {name : String} {isRequired : Bool}
    {type : Descriptor}
    (h : propertyType depth owner name fragment isRequired draft = some (some type, after))
    (hjson : type.leaf? = some .json) :
    after.catalog.warnings =
        draft.catalog.warnings ++ draft.catalog.warningsSince after.catalog ∧
      (Explained (owner.label name) draft.catalog after.catalog ↔ ¬Freeform fragment draft) := by
  have htypes := fragmentType_types h
  constructor
  · exact warnings_eq htypes.grows.catalog
  · exact htypes.explained_iff rfl hjson

/-- The schema behind an entry of `allOf` and a reference cannot be described, and a warning says
so. -/
theorem propertyType_json_explained_reference :
    let fragment : Json := .obj [("allOf", .arr [.referringTo "d"])]
    let start : Draft := .new (.new (.ofSchemas [("d", .obj [("oneOf", .arr [])])]) ["/s"] [])
      .empty (.ofNamespace "N")
    ∃ type after, propertyType 8 (ownerOf fragment) "p" fragment false start =
        some (some type, after) ∧ type.leaf? = some .json ∧
      Explained "C.p" start.catalog after.catalog ∧ ¬Freeform fragment start := by
  intro fragment start
  have hfound : (propertyType 8 (ownerOf fragment) "p" fragment false start : Option _).map
      (fun found => (found.1.bind (·.leaf?),
        (start.catalog.warningsSince found.2.catalog).any (·.explains "C.p"))) =
      some (some .json, true) := by
    decide +kernel
  obtain ⟨⟨found, after⟩, htype, hfacts⟩ := Option.map_eq_some_iff.mp hfound
  obtain ⟨hleaf, hexplained⟩ := Prod.mk.inj hfacts
  obtain ⟨type, rfl, hjson⟩ := Option.bind_eq_some_iff.mp hleaf
  have hexplained : Explained "C.p" start.catalog after.catalog :=
    List.any_eq_true.mp hexplained
  have hiff := (propertyType_json_explained htype hjson).2
  exact ⟨type, after, htype, hjson, hexplained, hiff.mp hexplained⟩

end Drafting

end SchemaClasses
