import SchemaClasses.Proofs.Drafting.Drafted
import SchemaClasses.Proofs.Drafting.Halting

/-!
# Fragments that say nothing

Whether a declared property becomes a member depends on its fragment alone: it does not exactly when
the fragment is hollow, that is, when the empty object is all that is behind it. So the members of a
drafted class are known from its document.
-/

namespace SchemaClasses

/-- The empty object, an array of items that are hollow, or an `allOf` of one hollow entry. -/
inductive Hollow : Json → Prop
  | empty {fragment} : PropertyShape.of fragment = .empty → Hollow fragment
  | array {fragment items} : PropertyShape.of fragment = .array (some items) → Hollow items →
      Hollow fragment
  | composite {fragment inner} : PropertyShape.of fragment = .composite inner → Hollow inner →
      Hollow fragment

theorem hollow_iff {fragment : Json} :
    Hollow fragment ↔ match PropertyShape.of fragment with
      | .empty => True
      | .array (some items) => Hollow items
      | .composite inner => Hollow inner
      | _ => False := by
  constructor
  · intro h
    cases h with
    | empty hshape => simp [hshape]
    | array hshape hollow => simpa [hshape] using hollow
    | composite hshape hollow => simpa [hshape] using hollow
  · intro h
    split at h
    · exact .empty ‹_›
    · exact .array ‹_› h
    · exact .composite ‹_› h
    · exact h.elim

theorem PropertyShape.of_eq_empty_iff {fragment : Json} :
    PropertyShape.of fragment = .empty ↔ fragment = .obj [] := by
  refine ⟨fun h => ?_, fun h => h ▸ rfl⟩
  rw [PropertyShape.of.eq_def] at h
  split at h
  · rfl
  · split at h
    · cases h
    · cases htype : ofType? _ with
      | some shape =>
        rw [htype, Option.getD_some] at h
        subst h
        rcases ofType?_cases htype with heq | ⟨_, heq⟩ | heq | ⟨_, _, heq⟩ <;> cases heq
      | none =>
        rw [htype, Option.getD_none] at h
        rcases ofLink_cases _ with ⟨_, _, heq⟩ | ⟨_, _, heq⟩ | heq <;> cases heq.symm.trans h
  · cases h

theorem hollow_cases {fragment : Json} :
    Hollow fragment ↔ fragment = .obj [] ∨ ∃ inner, Hollow inner ∧
      (PropertyShape.of fragment = .array (some inner) ∨
        PropertyShape.of fragment = .composite inner) := by
  constructor
  · intro h
    cases h with
    | empty hshape => exact .inl (PropertyShape.of_eq_empty_iff.mp hshape)
    | array hshape hollow => exact .inr ⟨_, hollow, .inl hshape⟩
    | composite hshape hollow => exact .inr ⟨_, hollow, .inr hshape⟩
  · rintro (rfl | ⟨inner, hollow, hshape | hshape⟩)
    · exact .empty rfl
    · exact .array hshape hollow
    · exact .composite hshape hollow

namespace Drafting

variable {owner : Owner} {draft after : Draft}

/-- A fragment has no type exactly when it is hollow. -/
theorem Types.eq_none_iff {path : String} {fragment : Json} {usage : Usage}
    {type : Option Descriptor} (h : Types owner path fragment usage draft type after) :
    type = none ↔ Hollow fragment := by
  rw [hollow_iff]
  induction h with
  | empty hshape | enumeration hshape | anyItems hshape | scalar hshape | inlineObject hshape
  | anyValues hshape | dictionary hshape | missing hshape | index hshape | json hshape
  | reference hshape | circular hshape | followed hshape | unsupported hshape => simp [hshape]
  | array hshape _ ih | composite hshape _ ih =>
    rw [← hollow_iff] at ih
    simpa [hshape] using ih

theorem Types.eq_of_none {path : String} {fragment : Json} {usage : Usage}
    {type : Option Descriptor} (h : Types owner path fragment usage draft type after)
    (hnone : type = none) : after = draft := by
  induction h with
  | empty => rfl
  | array _ _ ih | composite _ _ ih => exact ih (Option.map_eq_none_iff.mp hnone)
  | _ => cases hnone

/-- A fragment that is hollow needs no more depth than it has itself. -/
theorem fragmentType_halts_of_hollow {fragment : Json} (h : Hollow fragment) (path : String)
    (usage : Usage) : Halts (fragmentType owner · path fragment usage) draft := by
  induction h generalizing path usage with
  | empty hshape =>
    refine .succ ?_
    simp only [fragmentType, hshape]
    exact .once rfl
  | array hshape _ ih =>
    refine .succ ?_
    simp only [fragmentType, hshape, arrayType]
    refine .bind (.bind (ih _ _) fun {_ item _} _ => ?_) fun _ => .pure _
    cases item <;> exact .pure _
  | composite hshape _ ih =>
    refine .succ ?_
    simp only [fragmentType, hshape]
    exact .bind (ih _ _) fun _ => .pure _

/-- The declared properties whose fragments are not hollow become members, and no others do. -/
theorem Members.mem_names_iff {declared : List (String × Json)} {members : List Property}
    (h : Members owner declared draft members after) {name : String} :
    name ∈ members.map (·.name) ↔
      name ∉ impliedProperties ∧ ∃ fragment, (name, fragment) ∈ declared ∧ ¬Hollow fragment := by
  induction h with
  | nil => simp
  | @implied first fragment rest _ _ _ himplied _ ih =>
    rw [ih]
    refine and_congr_right fun hname => exists_congr fun other => ?_
    have hne : (name, other) ≠ (first, fragment) := by
      rintro ⟨⟩
      exact hname himplied
    rw [List.mem_cons, or_iff_right hne]
  | @stub first fragment rest _ _ _ _ _ htype _ ih =>
    rw [ih]
    have hollow := htype.eq_none_iff.mp rfl
    refine and_congr_right fun _ => exists_congr fun other => and_congr_left fun hother => ?_
    have hne : (name, other) ≠ (first, fragment) := by
      rintro ⟨⟩
      exact hother hollow
    rw [List.mem_cons, or_iff_right hne]
  | @member first fragment rest _ _ _ _ _ himplied htype _ ih =>
    have solid : ¬Hollow fragment := fun hollow => by cases htype.eq_none_iff.mpr hollow
    rw [List.map_cons, List.mem_cons, ih]
    constructor
    · rintro (rfl | ⟨hname, other, hmem, hother⟩)
      · exact ⟨himplied, fragment, List.mem_cons_self, solid⟩
      · exact ⟨hname, other, List.mem_cons_of_mem _ hmem, hother⟩
    · rintro ⟨hname, other, hmem, hother⟩
      rcases List.mem_cons.mp hmem with heq | hmem
      · exact .inl (Prod.mk.inj heq).1
      · exact .inr ⟨hname, other, hmem, hother⟩

theorem Members.names_sublist {declared : List (String × Json)} {members : List Property}
    (h : Members owner declared draft members after) :
    (members.map (·.name)).Sublist (declared.map Prod.fst) := by
  induction h with
  | nil => exact .slnil
  | implied _ _ ih => exact ih.cons _
  | stub _ _ _ ih => exact ih.cons _
  | member _ _ _ ih => exact ih.cons_cons _

theorem Drafted.object_inv {document : Document} {base : Option ClassId}
    {declared : List String} {members : List Property} {drafted : DraftClass}
    (h : Drafted document draft drafted) (hobject : drafted.body = .object base declared members) :
    declared = document.propertyNames ∧
      ∀ name, name ∈ members.map (·.name) ↔ name ∉ impliedProperties ∧
        ∃ fragment, (name, fragment) ∈ document.properties ∧ ¬Hollow fragment := by
  obtain ⟨start, last, ⟨hbody⟩, -⟩ := h
  obtain ⟨-, rfl, between, -, hmembers⟩ := hbody.object_inv hobject
  exact ⟨rfl, fun name => hmembers.mem_names_iff⟩

theorem Drafted.names_sublist {document : Document} {base : Option ClassId}
    {declared : List String} {members : List Property} {drafted : DraftClass}
    (h : Drafted document draft drafted) (hobject : drafted.body = .object base declared members) :
    (members.map (·.name)).Sublist document.propertyNames := by
  obtain ⟨start, last, ⟨hbody⟩, -⟩ := h
  obtain ⟨-, -, between, -, hmembers⟩ := hbody.object_inv hobject
  exact hmembers.names_sublist

/-- Finding the type of a property gives none exactly when the fragment is hollow. Then it always
comes to an end, and nothing is told about the property. Besides the empty object, the arrays of
hollow items and the hollow entries alone in an `allOf` are hollow. -/
theorem propertyType_none_iff_hollow (owner : Owner) (name : String) (fragment : Json)
    (isRequired : Bool) (draft : Draft) :
    (∀ depth type after,
      propertyType depth owner name fragment isRequired draft = some (type, after) →
      (type = none ↔ Hollow fragment)) ∧
    (Hollow fragment → ∃ depth, ∀ more, depth ≤ more →
      propertyType more owner name fragment isRequired draft = some (none, draft)) ∧
    (Hollow fragment ↔ fragment = .obj [] ∨ ∃ inner, Hollow inner ∧
      (PropertyShape.of fragment = .array (some inner) ∨
        PropertyShape.of fragment = .composite inner)) := by
  refine ⟨fun depth type after h => (fragmentType_types h).eq_none_iff, fun hollow => ?_,
    hollow_cases⟩
  have halts : Halts (propertyType · owner name fragment isRequired) draft :=
    fragmentType_halts_of_hollow hollow name _
  obtain ⟨depth, ⟨type, after⟩, h⟩ := halts
  have htypes := fragmentType_types (h depth le_rfl)
  obtain rfl := htypes.eq_none_iff.mpr hollow
  obtain rfl := htypes.eq_of_none rfl
  exact ⟨depth, h⟩

def anyArray : Json := .obj [("type", .str "array"), ("items", .obj [])]

def anyMembers : Json := .obj [("type", .str "object"), ("additionalProperties", .obj [])]

def ownerOf (fragment : Json) : Owner :=
  ⟨⟨"/s/c", "/s/c", .obj [("type", .str "object"), ("properties", .obj [("p", fragment)])]⟩, "C"⟩

def noSchemas : Draft := .new (.new ⟨[], []⟩ ["/s"] []) .empty (.ofNamespace "N")

/-- An array in an `allOf` has no type because its items say nothing. -/
theorem propertyType_none_iff_hollow_allOf :
    let fragment : Json := .obj [("allOf", .arr [anyArray])]
    propertyType 8 (ownerOf fragment) "p" fragment false noSchemas = some (none, noSchemas) ∧
      Hollow fragment := by
  intro fragment
  have htype : propertyType 8 (ownerOf fragment) "p" fragment false noSchemas =
      some (none, noSchemas) := rfl
  exact ⟨htype, ((propertyType_none_iff_hollow _ _ _ _ _).1 _ _ _ htype).mp rfl⟩

/-- A property that is an array of anything is lost without a word, while one whose members are
anything has a type. -/
theorem propertyType_items_lost :
    anyArray ≠ .obj [] ∧
      propertyType 8 (ownerOf anyArray) "p" anyArray false noSchemas = some (none, noSchemas) ∧
      ∃ type, propertyType 8 (ownerOf anyMembers) "p" anyMembers false noSchemas =
        some (some type, noSchemas) := by
  refine ⟨fun h => ?_, rfl, _, rfl⟩
  cases h

end Drafting

end SchemaClasses
