import SchemaClasses.Proofs.Drafting.Following

/-!
# Coming to an end

An action ends when its bound is great enough, and a greater one changes nothing then. Following
links ends, and so does finding the type of a fragment: a schema that is referred to is looked at
only when it is not being followed, under one of finitely many keys, and otherwise the fragment gets
smaller. So drafting any one class ends, in any draft.
-/

namespace SchemaClasses.Drafting

variable {α β : Type} {draft : Draft}

/-- An action that ends at every depth from some depth on, with one and the same end. -/
def Halts (action : Nat → Drafting α) (draft : Draft) : Prop :=
  ∃ depth last, ∀ more, depth ≤ more → action more draft = some last

namespace Halts

theorem once {action : Drafting α} {last : α × Draft} (h : action draft = some last) :
    Halts (fun _ => action) draft :=
  ⟨0, last, fun _ _ => h⟩

theorem pure (result : α) : Halts (fun _ => Pure.pure result) draft := once rfl

theorem succ {action : Nat → Drafting α} (h : Halts (fun depth => action (depth + 1)) draft) :
    Halts action draft := by
  obtain ⟨depth, last, h⟩ := h
  refine ⟨depth + 1, last, fun more hmore => ?_⟩
  obtain ⟨less, rfl⟩ := Nat.exists_eq_add_of_le' (Nat.le_trans (Nat.le_add_left 1 depth) hmore)
  exact h less (Nat.le_of_succ_le_succ hmore)

theorem bind {first : Nat → Drafting α} {next : Nat → α → Drafting β} (h : Halts first draft)
    (k : ∀ {depth result between}, first depth draft = some (result, between) →
      Halts (fun depth => next depth result) between) :
    Halts (fun depth => first depth >>= next depth) draft := by
  obtain ⟨depth, ⟨result, between⟩, hfirst⟩ := h
  obtain ⟨further, last, hnext⟩ := k (hfirst depth (Nat.le_refl _))
  refine ⟨max depth further, last, fun more hmore => ?_⟩
  change (first more draft).bind _ = _
  rw [hfirst more (Nat.le_trans (Nat.le_max_left _ _) hmore)]
  exact hnext more (Nat.le_trans (Nat.le_max_right _ _) hmore)

theorem map {action : Nat → Drafting α} (f : α → β) (h : Halts action draft) :
    Halts (fun depth => f <$> action depth) draft := by
  simp only [map_eq_pure_bind]
  exact bind h fun _ => pure _

theorem get_bind {next : Nat → Draft → Drafting β}
    (h : Halts (fun depth => next depth draft) draft) :
    Halts (fun depth => get >>= next depth) draft :=
  h

theorem inContext {action : Nat → Drafting α} {document : Document}
    (h : Halts action { draft with catalog := draft.catalog.enter document }) :
    Halts (fun depth => Drafting.inContext document (action depth)) draft := by
  refine .bind (.once rfl) fun henter => ?_
  obtain rfl := (onCatalog_inv henter).2
  exact .bind h fun _ => .bind (.once rfl) fun _ => .pure _

theorem whileFollowing {action : Nat → Drafting α} {key : String}
    (h : Halts action { draft with following := key :: draft.following }) :
    Halts (fun depth => Drafting.whileFollowing key (action depth)) draft := by
  refine .bind (.once rfl) fun hfollow => .bind (.once rfl) fun hwatch => ?_
  obtain rfl := watch_inv hwatch
  obtain rfl := modify_inv hfollow
  exact .bind h fun _ => .bind (.once rfl) fun _ => .pure _

end Halts

theorem Gives.halts {action : Nat → Drafting α} {result : α} (h : Gives action draft result) :
    Halts action draft := by
  obtain ⟨depth, after, h⟩ := h
  exact ⟨depth, (result, after), h⟩

theorem intern_halts (document : Document) (draft : Draft) : Halts (intern · document) draft := by
  unfold intern
  obtain ⟨found, h⟩ := unalias_ends document draft
  refine .bind h.halts fun {_ own between} _ => ?_
  cases own with
  | none => exact .pure none
  | some own =>
    refine .get_bind ?_
    split
    · exact .pure _
    · exact .bind (.once rfl) fun _ => .pure _

/-! ### Types -/

section

variable {owner : Owner} {path : String} {fragment : Json} {usage : Usage}
variable {sources texts keys : List String}

theorem enumerationOf_halts {label name scope : String} {default : Option Json} :
    Halts (fun _ => enumerationOf label name scope fragment default) draft := by
  unfold enumerationOf
  split
  · exact .pure _
  · exact .bind (.once rfl) fun _ => .pure _

theorem enumerationType_halts :
    Halts (fun _ => enumerationType owner path fragment usage) draft := by
  unfold enumerationType
  refine .get_bind (.bind enumerationOf_halts fun {_ found _} _ => ?_)
  cases found <;> exact .pure _

theorem inlineObjectType_halts {isOptional : Bool} :
    Halts (inlineObjectType · owner path fragment isOptional) draft := by
  unfold inlineObjectType
  refine .bind (.once rfl) fun {_ document between} _ => ?_
  refine .get_bind (.bind (intern_halts document between) fun {_ id after} _ => ?_)
  cases id <;> exact .once rfl

theorem classType_halts {document : Document} {className : String} {isOptional : Bool} :
    Halts (classType · document className isOptional) draft := by
  unfold classType
  refine .get_bind (.bind (intern_halts document draft) fun {_ id after} _ => ?_)
  cases id <;> exact .once rfl

/-- What a fragment leads to has one of the given keys, because it comes from one of the sources and
has no texts but the given ones. -/
structure Confined (sources texts keys : List String) (fragment : Json) (draft : Draft) : Prop where
  bounded : draft.catalog.Bounded sources texts
  context : ∃ source ∈ sources, ∀ top ∈ draft.catalog.contextTop?, top = source
  texts_subset : fragment.texts ⊆ texts
  keys_eq : draft.catalog.keysWithin sources texts = keys

namespace Confined

variable {inner : Json} {reference : String} {document : Document} {between : Draft}

theorem exists_keys (fragment : Json) (draft : Draft) :
    ∃ sources texts keys, Confined sources texts keys fragment draft := by
  let source := draft.catalog.contextTop?.getD ""
  obtain ⟨sources, texts, bounded, made⟩ := draft.catalog.exists_bounded ⟨"", source, fragment⟩
  refine ⟨sources, texts, _, bounded, ⟨source, made.source, fun top htop => ?_⟩, made.texts, rfl⟩
  rw [show source = draft.catalog.contextTop?.getD "" from rfl, htop, Option.getD_some]

theorem part (h : Confined sources texts keys fragment draft) (hinner : inner.Occurs fragment) :
    Confined sources texts keys inner draft :=
  ⟨h.bounded, h.context, List.Subset.trans hinner.texts_subset h.texts_subset, h.keys_eq⟩

theorem key_mem (h : Confined sources texts keys fragment draft)
    (href : fragment.string? "$ref" = some reference)
    (hload : load reference draft = some (some document, between)) : document.key ∈ keys := by
  obtain ⟨source, hsource, htop⟩ := h.context
  obtain ⟨hfound, -⟩ := load_inv hload
  rw [← h.keys_eq]
  refine List.mem_flatMap.mpr ⟨source, hsource, List.mem_flatMap.mpr ⟨reference, ?_, ?_⟩⟩
  · exact h.texts_subset (Json.mem_texts_of_string? href)
  · exact Catalog.load_key htop hfound.symm

theorem enter (h : Confined sources texts keys fragment draft)
    (hload : load reference draft = some (some document, between)) (following : List String) :
    Confined sources texts keys document.body
      { between with following := following, catalog := between.catalog.enter document } := by
  have hknown := (load_knows hload).mem
  have grows := (load_grows hload).catalog
  obtain ⟨-, rfl⟩ := load_inv hload
  have hbounded := h.bounded.load reference
  have hmade := hbounded.made document hknown
  refine ⟨hbounded.of_same ⟨rfl, rfl⟩ rfl, ⟨document.source, hmade.source, ?_⟩, hmade.texts, ?_⟩
  · exact fun top htop => (Option.some.inj htop).symm
  · exact (Catalog.keysWithin_eq grows sources texts).trans h.keys_eq

end Confined

/-- What is left to look at for a fragment: the keys that loading can lead to and that are not being
followed, then the fragment. -/
noncomputable def toLookAt (keys : List String) (fragment : Json) (draft : Draft) : Nat × Nat :=
  ((keys.toFinset \ draft.following.toFinset).card, sizeOf fragment)

/-- Finding the type of a fragment comes to an end when what it leads to is confined. -/
theorem fragmentType_halts (owner : Owner) (path : String) (fragment : Json) (usage : Usage)
    (draft : Draft) (confined : Confined sources texts keys fragment draft) :
    Halts (fragmentType owner · path fragment usage) draft := by
  refine .succ ?_
  simp only [fragmentType]
  cases hshape : PropertyShape.of fragment <;> dsimp only <;> refine .bind ?_ fun _ => .pure _
  case empty | scalar => exact .pure _
  case enumeration => exact .map _ enumerationType_halts
  case inlineObject => exact .map _ inlineObjectType_halts
  case unsupported => exact .once rfl
  case array items =>
    unfold arrayType
    cases items with
    | none => exact .pure _
    | some items =>
      have hget := PropertyShape.array_inv hshape
      have hless : Prod.Lex (· < ·) (· < ·) (toLookAt keys items draft)
        (toLookAt keys fragment draft) := .right _ (Json.sizeOf_lt_of_get? hget)
      have hitems := fragmentType_halts owner (path ++ ".items") items (.ofItems items) draft
        (confined.part (Json.occurs_of_get? hget))
      refine .bind hitems fun {_ item _} _ => ?_
      cases item <;> exact .pure _
  case dictionary values =>
    unfold dictionaryType
    refine .map _ ?_
    split
    · exact .pure _
    · have hget := PropertyShape.dictionary_inv hshape
      have hless : Prod.Lex (· < ·) (· < ·) (toLookAt keys values draft)
        (toLookAt keys fragment draft) := .right _ (Json.sizeOf_lt_of_get? hget)
      have hvalues := fragmentType_halts owner (path ++ ".additionalProperties") values .ofValues
        draft (confined.part (Json.occurs_of_get? hget))
      exact .bind hvalues fun _ => .pure _
  case composite inner =>
    have hbase := PropertyShape.composite_inv hshape
    have hless : Prod.Lex (· < ·) (· < ·) (toLookAt keys inner draft)
      (toLookAt keys fragment draft) := .right _ (sizeOf_onlyBase?_lt hbase)
    exact fragmentType_halts owner path inner (usage.inside inner) draft
      (confined.part (occurs_of_onlyBase? hbase))
  case reference reference =>
    unfold referenceType
    refine .map _ (.bind (.once rfl) fun {_ found between} hload => ?_)
    cases found with
    | none => exact .bind (.once rfl) fun _ => .pure _
    | some document =>
      dsimp only
      split
      · exact .pure _
      refine .get_bind ?_
      split
      · exact .pure _
      split
      · exact classType_halts
      unfold followedType
      refine .get_bind ?_
      split
      · exact .bind (.once rfl) fun _ => .pure _
      rename_i hfollowing
      -- The key of the document is one that loading leads to, and it is followed from now on.
      have hkey := confined.key_mem (PropertyShape.reference_inv hshape) hload
      have hentered := confined.enter hload (document.key :: between.following)
      obtain ⟨-, rfl⟩ := load_inv hload
      let next : Draft := { draft with
        following := document.key :: draft.following
        catalog := (draft.catalog.load reference).2.enter document }
      have hless : Prod.Lex (· < ·) (· < ·) (toLookAt keys document.body next)
        (toLookAt keys fragment draft) := .left _ _ (card_sdiff_cons_lt hkey hfollowing)
      refine .bind (.whileFollowing (.inContext ?_)) fun _ => .pure _
      exact fragmentType_halts owner path document.body (usage.inside document.body) next hentered
termination_by toLookAt keys fragment draft
decreasing_by all_goals exact hless

end

/-! ### Classes -/

section

variable {owner : Owner}

/-- Finding the type of a property comes to an end. -/
theorem propertyType_halts (owner : Owner) (name : String) (fragment : Json) (isRequired : Bool)
    (draft : Draft) : Halts (propertyType · owner name fragment isRequired) draft := by
  obtain ⟨sources, texts, keys, confined⟩ := Confined.exists_keys fragment draft
  exact fragmentType_halts owner name fragment _ draft confined

theorem propertiesOf_halts (owner : Owner) (declared : List (String × Json)) (draft : Draft) :
    Halts (propertiesOf · owner declared) draft := by
  induction declared generalizing draft with
  | nil => exact .pure []
  | cons entry rest ih =>
    obtain ⟨name, fragment⟩ := entry
    simp only [propertiesOf]
    split
    · exact ih draft
    · refine .bind (propertyType_halts owner name fragment _ draft) fun {_ type between} _ => ?_
      have hrest := ih between
      cases type with
      | none => exact hrest
      | some type => exact .bind hrest fun _ => .pure _

theorem baseClass_halts (document : Document) (entry : Json) (draft : Draft) :
    Halts (baseClass · document entry) draft := by
  unfold baseClass
  cases Link.ofEntry entry with
  | reference target =>
    refine .bind (.once rfl) fun {_ found between} _ => ?_
    cases found with
    | none => exact .pure none
    | some base => exact intern_halts base between
  | entry body =>
    refine .bind (.map some (.once rfl)) fun {_ found between} _ => ?_
    cases found with
    | none => exact .pure none
    | some base => exact intern_halts base between

theorem baseOf_halts (document : Document) (typeName : String) (draft : Draft) :
    Halts (baseOf · document typeName) draft := by
  unfold baseOf
  split
  · rename_i first rest _
    split
    · exact .bind (.once rfl) fun _ => baseClass_halts document first _
    · exact baseClass_halts document first draft
  · exact .pure none

theorem valueBody_halts :
    Halts (valueBody · owner) draft := by
  unfold valueBody
  refine .bind (propertyType_halts owner _ _ _ draft) fun {_ type between} _ => ?_
  cases type <;> exact .pure _

theorem enumerationBody_halts {listsItems : Bool} :
    Halts (fun _ => enumerationBody owner listsItems) draft := by
  unfold enumerationBody
  refine .get_bind (.bind enumerationOf_halts fun {_ found _} _ => ?_)
  cases found with
  | none => exact .pure _
  | some e =>
    dsimp only
    split
    · exact .bind (.once rfl) fun _ => .pure _
    · exact .pure _

theorem bodyOf_halts (owner : Owner) (draft : Draft) :
    Halts (bodyOf · owner) draft := by
  unfold bodyOf
  cases hshape : SchemaShape.of owner.document.body <;> simp only [hshape]
  case object =>
    unfold objectBody
    refine .bind (baseOf_halts _ _ draft) fun {_ _ between} _ => ?_
    exact .bind (propertiesOf_halts owner _ between) fun _ => .pure _
  case scalar | array => exact valueBody_halts
  case anyOf | enumeration =>
    split
    · exact enumerationBody_halts
    · exact .once rfl
  all_goals exact .once rfl

/-- Drafting the class at a place comes to an end. -/
theorem draftAt_halts (id : ClassId) (draft : Draft) : Halts (draftAt · id) draft := by
  unfold draftAt
  refine .get_bind ?_
  split
  · exact .pure ()
  · refine .bind (.inContext (.get_bind ?_)) fun _ => .once rfl
    exact .bind (bodyOf_halts _ _) fun _ => .once rfl

end

end SchemaClasses.Drafting
