import SchemaClasses.Proofs.Drafting.Additions
import SchemaClasses.Proofs.Drafting.Agreement

/-!
# Numbers that keys give

Two drafts give places to the same documents in different orders, so a class has different ids in
them. When classes are numbered by their keys instead, what a class refers to can be compared, and
the numbers stay the same while drafts grow. The places of what is declared in one class are looked
at under such numbers.
-/

namespace SchemaClasses

section

variable {σ τ : ClassId → ClassId}

theorem Descriptor.renumbered_congr {type : Descriptor}
    (h : ∀ id ∈ type.classes, σ id = τ id) : type.renumbered σ = type.renumbered τ := by
  induction type with
  | leaf kind facets =>
    have hkind : kind.renumbered σ = kind.renumbered τ := by
      cases kind with
      | reference target | inlineObject target =>
        have htarget : σ target = τ target := h target List.mem_cons_self
        simp [Leaf.renumbered, htarget]
      | _ => rfl
    simp [Descriptor.renumbered, hkind]
  | array item facets ih | dictionary item facets ih => simp [Descriptor.renumbered, ih h]

theorem DraftBody.renumbered_congr {body : DraftBody} (h : ∀ id ∈ body.ids, σ id = τ id) :
    body.renumbered σ = body.renumbered τ := by
  have htype {type : Descriptor} (htype : type ∈ body.types) :
      type.renumbered σ = type.renumbered τ :=
    Descriptor.renumbered_congr fun id hid =>
      h id (List.mem_append_right _ (List.mem_flatMap.mpr ⟨type, htype, hid⟩))
  cases body with
  | object base declared members =>
    have hbase : base.map σ = base.map τ :=
      Option.map_congr fun id hid => h id (List.mem_append_left _ (Option.mem_toList.mpr hid))
    have hmembers : members.map (·.renumbered σ) = members.map (·.renumbered τ) := by
      refine List.map_congr_left fun p hp => ?_
      simp [Property.renumbered, htype (List.mem_map_of_mem hp)]
    simp [DraftBody.renumbered, hbase, hmembers]
  | value type => simp [DraftBody.renumbered, htype (List.mem_singleton.mpr rfl)]
  | enumeration | unsupported => rfl

theorem DraftBody.ids_renumbered (body : DraftBody) :
    (body.renumbered σ).ids = body.ids.map σ := by
  unfold DraftBody.ids
  rw [DraftBody.types_renumbered, List.map_append]
  have htypes : (body.types.map (·.renumbered σ)).flatMap (·.classes) =
      (body.types.flatMap (·.classes)).map σ := by
    simp [List.flatMap_map, List.map_flatMap, Descriptor.classes_renumbered]
  rw [htypes]
  cases body with
  | object base => cases base <;> rfl
  | enumeration | value | unsupported => rfl

theorem DraftClass.renumbered_congr {drafted : DraftClass}
    (h : ∀ id ∈ drafted.body.ids, σ id = τ id) : drafted.renumbered σ = drafted.renumbered τ := by
  simp [DraftClass.renumbered, DraftBody.renumbered_congr h]

end

namespace Place

def renumbered (σ : ClassId → ClassId) (place : Place) : Place :=
  { place with drafted := place.drafted.map (·.renumbered σ) }

def declaredIn (home : List (List Char)) (σ : ClassId → ClassId) (places : List Place) :
    List Place :=
  (places.filter fun place => Location.host place.document.key = home).map (·.renumbered σ)

variable {home : List (List Char)} {σ τ : ClassId → ClassId}

theorem declaredIn_append (places more : List Place) :
    declaredIn home σ (places ++ more) = declaredIn home σ places ++ declaredIn home σ more := by
  simp [declaredIn]

theorem declaredIn_cons (place : Place) (more : List Place) :
    declaredIn home σ (place :: more) =
      (if Location.host place.document.key = home then [place.renumbered σ] else []) ++
        declaredIn home σ more := by
  by_cases h : Location.host place.document.key = home <;> simp [declaredIn, h]

theorem declaredIn_new (added : List Document) :
    declaredIn home σ (added.map (⟨·, none⟩)) =
      (added.filter fun document => Location.host document.key = home).map (⟨·, none⟩) := by
  simp [declaredIn, List.filter_map, Function.comp_def, renumbered]

theorem mem_declaredIn {places : List Place} {found : Place} :
    found ∈ declaredIn home σ places ↔
      ∃ place ∈ places, Location.host place.document.key = home ∧ place.renumbered σ = found := by
  simp [declaredIn, and_assoc]

theorem declaredIn_congr {places : List Place}
    (h : ∀ place ∈ places, ∀ drafted, place.drafted = some drafted →
      ∀ id ∈ drafted.body.ids, σ id = τ id) :
    declaredIn home σ places = declaredIn home τ places := by
  refine List.map_congr_left fun place hplace => ?_
  have hdrafted : place.drafted.map (·.renumbered σ) = place.drafted.map (·.renumbered τ) :=
    Option.map_congr fun drafted hdrafted =>
      DraftClass.renumbered_congr (h place (List.mem_filter.mp hplace).1 drafted hdrafted)
  simp [renumbered, hdrafted]

end Place

namespace Draft

variable {draft after : Draft} {number : String → ClassId} {home : List (List Char)}

def numbering (number : String → ClassId) (draft : Draft) (id : ClassId) : ClassId :=
  ((draft.keys[id]?).map number).getD 0

theorem holds_iff {id : ClassId} {key : String} :
    draft.Holds id key ↔ draft.keys[id]? = some key := by
  rw [keys, List.getElem?_map]
  rfl

theorem Holds.numbering {id : ClassId} {key : String} (holds : draft.Holds id key)
    (number : String → ClassId) : draft.numbering number id = number key := by
  simp [Draft.numbering, holds_iff.mp holds]

theorem numberAlike (number : String → ClassId) (draft other : Draft) :
    NumberAlike (draft.numbering number) (other.numbering number) draft other :=
  fun _ _ _ holds holds' => (holds.numbering number).trans (holds'.numbering number).symm

theorem Within.numbering (within : draft.Within after) (number : String → ClassId) {id : ClassId}
    (hid : id < draft.places.length) : after.numbering number id = draft.numbering number id := by
  obtain ⟨key, holds⟩ := has_of_lt hid
  rw [holds.numbering, (within.holds holds).numbering]

def placesIn (number : String → ClassId) (home : List (List Char)) (draft : Draft) : List Place :=
  Place.declaredIn home (draft.numbering number) draft.places

theorem documentsIn_eq (number : String → ClassId) (home : List (List Char)) (draft : Draft) :
    draft.documentsIn home = (draft.placesIn number home).map (·.document) := by
  simp [documentsIn, placesIn, Place.declaredIn, List.filter_map, Function.comp_def,
    Place.renumbered]

theorem Orderly.declaredIn_within {busy : List ClassId} (orderly : draft.Orderly busy)
    (within : draft.Within after) {places : List Place} (hplaces : ∀ place ∈ places,
      place ∈ draft.places) :
    Place.declaredIn home (after.numbering number) places =
      Place.declaredIn home (draft.numbering number) places := by
  refine Place.declaredIn_congr fun place hplace drafted hdrafted id hid => ?_
  have hclass := orderly.drafted place (hplaces place hplace) drafted hdrafted
  exact within.numbering number (hclass.ids_lt id hid)

theorem Orderly.placesIn_grows {busy : List ClassId} {added : List Document}
    (orderly : draft.Orderly busy) (grows : draft.Grows after)
    (hplaces : after.places = draft.places ++ added.map (⟨·, none⟩)) :
    after.placesIn number home = draft.placesIn number home ++
      (added.filter fun document => Location.host document.key = home).map (⟨·, none⟩) := by
  unfold placesIn
  rw [hplaces, Place.declaredIn_append, Place.declaredIn_new,
    orderly.declaredIn_within grows.within fun _ h => h]

theorem documentsIn_grows {added : List Document}
    (hplaces : after.places = draft.places ++ added.map (⟨·, none⟩)) :
    after.documentsIn home = draft.documentsIn home ++
      added.filter fun document => Location.host document.key = home := by
  simp [documentsIn, hplaces, Function.comp_def]

end Draft

end SchemaClasses
