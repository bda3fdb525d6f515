import SchemaClasses.Proofs.Json.Occurs
import SchemaClasses.Proofs.Shape

/-!
# Heights and parts of JSON values

A value has finitely many parts, and each of them that is further in is less high than the value.
The title of a schema adds nothing to its height, so a schema that is made from a part of another
under a new title is less high than that, although it may be larger.
-/

namespace SchemaClasses

namespace Json

mutual

/-- How deep a value is nested. -/
def height : Json → Nat
  | .null => 0
  | .bool _ => 0
  | .num _ => 0
  | .str _ => 0
  | .arr items => heightOfItems items + 1
  | .obj fields => heightOfFields fields + 1

def heightOfItems : List Json → Nat
  | [] => 0
  | item :: rest => max (height item) (heightOfItems rest)

def heightOfFields : List (String × Json) → Nat
  | [] => 0
  | (_, value) :: rest => max (height value) (heightOfFields rest)

end

mutual

/-- The parts of a value, itself first. -/
def parts : Json → List Json
  | .arr items => .arr items :: partsOfItems items
  | .obj fields => .obj fields :: partsOfFields fields
  | value => [value]

def partsOfItems : List Json → List Json
  | [] => []
  | item :: rest => parts item ++ partsOfItems rest

def partsOfFields : List (String × Json) → List Json
  | [] => []
  | (_, value) :: rest => parts value ++ partsOfFields rest

end

variable {part value whole : Json} {key : String}

theorem height_le_items {items : List Json} {item : Json} (h : item ∈ items) :
    item.height ≤ heightOfItems items := by
  induction items with
  | nil => cases h
  | cons first rest ih =>
    rw [heightOfItems]
    rcases List.mem_cons.mp h with rfl | h
    · exact Nat.le_max_left _ _
    · exact Nat.le_trans (ih h) (Nat.le_max_right _ _)

theorem height_le_fields {fields : List (String × Json)} (h : (key, value) ∈ fields) :
    value.height ≤ heightOfFields fields := by
  induction fields with
  | nil => cases h
  | cons first rest ih =>
    obtain ⟨k, v⟩ := first
    rw [heightOfFields]
    rcases List.mem_cons.mp h with heq | h
    · obtain ⟨rfl, rfl⟩ := Prod.mk.inj heq
      exact Nat.le_max_left _ _
    · exact Nat.le_trans (ih h) (Nat.le_max_right _ _)

theorem Occurs.height_le (h : part.Occurs whole) : part.height ≤ whole.height := by
  induction h with
  | self => exact Nat.le_refl _
  | item hitem _ ih =>
    rw [height]
    exact Nat.le_succ_of_le (Nat.le_trans ih (height_le_items hitem))
  | field hfield _ ih =>
    rw [height]
    exact Nat.le_succ_of_le (Nat.le_trans ih (height_le_fields hfield))

theorem height_lt_of_get? (h : value.get? key = some part) : part.height < value.height := by
  obtain ⟨fields, hfields, hget⟩ := Option.bind_eq_some_iff.mp h
  cases value with
  | obj own =>
    obtain rfl := Option.some.inj hfields
    rw [height]
    exact Nat.lt_succ_of_le (height_le_fields (Ordered.mem_of_get? hget))
  | null | bool | num | str | arr => cases hfields

theorem heightOfFields_put (fields : List (String × Json)) (key text : String) :
    heightOfFields (Ordered.put fields key (.str text)) ≤ heightOfFields fields := by
  induction fields with
  | nil => simp [Ordered.put, heightOfFields, height]
  | cons first rest ih =>
    obtain ⟨k, v⟩ := first
    rw [Ordered.put]
    split
    · rw [heightOfFields, heightOfFields, height]
      omega
    · rw [heightOfFields, heightOfFields]
      omega

theorem height_titled_le (value : Json) (title : String) :
    (value.titled title).height ≤ value.height := by
  cases value with
  | obj fields =>
    rw [titled, height, height]
    exact Nat.succ_le_succ (heightOfFields_put fields "title" title)
  | null | bool | num | str | arr => exact Nat.le_refl _

theorem parts_subset_items {items : List Json} {item : Json} (h : item ∈ items) :
    item.parts ⊆ partsOfItems items := by
  induction items with
  | nil => cases h
  | cons first rest ih =>
    rw [partsOfItems]
    rcases List.mem_cons.mp h with rfl | h
    · exact List.subset_append_left _ _
    · exact List.subset_append_of_subset_right _ (ih h)

theorem parts_subset_fields {fields : List (String × Json)} (h : (key, value) ∈ fields) :
    value.parts ⊆ partsOfFields fields := by
  induction fields with
  | nil => cases h
  | cons first rest ih =>
    obtain ⟨k, v⟩ := first
    rw [partsOfFields]
    rcases List.mem_cons.mp h with heq | h
    · obtain ⟨rfl, rfl⟩ := Prod.mk.inj heq
      exact List.subset_append_left _ _
    · exact List.subset_append_of_subset_right _ (ih h)

theorem Occurs.mem_parts (h : part.Occurs whole) : part ∈ whole.parts := by
  induction h with
  | self => cases part <;> simp [parts]
  | item hitem _ ih =>
    rw [parts]
    exact List.mem_cons_of_mem _ (parts_subset_items hitem ih)
  | field hfield _ ih =>
    rw [parts]
    exact List.mem_cons_of_mem _ (parts_subset_fields hfield ih)

def fieldNames (value : Json) : List String := (value.asObject?.getD []).map Prod.fst

end Json

theorem height_onlyBase?_lt {schema inner : Json} (h : onlyBase? schema = some inner) :
    inner.height < schema.height := by
  obtain ⟨entries, hget, hinner⟩ := onlyBase?_inv h
  exact Nat.lt_of_le_of_lt hinner.height_le (Json.height_lt_of_get? hget)

theorem Document.properties_named {document : Document} {name : String} {fragment : Json}
    (h : (name, fragment) ∈ document.properties) :
    ∃ object, document.body.get? "properties" = some object ∧ name ∈ object.fieldNames := by
  unfold properties at h
  cases hfields : (document.body.get? "properties").bind Json.asObject? with
  | none => simp [hfields] at h
  | some fields =>
    rw [hfields, Option.getD_some] at h
    obtain ⟨object, hget, hobject⟩ := Option.bind_eq_some_iff.mp hfields
    refine ⟨object, hget, ?_⟩
    rw [Json.fieldNames, hobject, Option.getD_some]
    exact List.mem_map_of_mem h

/-- A fragment is an inline object, or leads to one through its items, its values or its entry. -/
inductive Json.HasInlineObject : Json → Prop
  | self {fragment} : PropertyShape.of fragment = .inlineObject → HasInlineObject fragment
  | items {fragment items} : PropertyShape.of fragment = .array (some items) →
      HasInlineObject items → HasInlineObject fragment
  | values {fragment values} : PropertyShape.of fragment = .dictionary values →
      values.asBool? ≠ some true → HasInlineObject values → HasInlineObject fragment
  | inner {fragment inner} : PropertyShape.of fragment = .composite inner →
      HasInlineObject inner → HasInlineObject fragment

/-- Where an object is declared, there are properties in the value that the fragment stems from. -/
theorem Json.HasInlineObject.properties {bare : Prop} {whole fragment : Json}
    (h : fragment.HasInlineObject) (hstems : whole.Stems bare fragment) :
    ∃ part : Json, part.Occurs whole ∧ part.get? "properties" ≠ none := by
  induction h with
  | @self fragment hshape =>
    obtain ⟨-, -, hproperties⟩ := PropertyShape.inlineObject_inv hshape
    have hsome : fragment.get? "properties" ≠ none := fun hnone => by simp [hnone] at hproperties
    cases hstems with
    | part hpart => exact ⟨_, hpart, hsome⟩
    | titled title hpart =>
      rw [Json.get?_titled _ _ (by decide)] at hsome
      exact ⟨_, hpart, hsome⟩
    | title => exact absurd rfl hsome
  | items hshape _ ih =>
    exact ih (.part (hstems.get? (PropertyShape.array_inv hshape) (by decide)))
  | values hshape _ _ ih =>
    exact ih (.part (hstems.get? (PropertyShape.dictionary_inv hshape) (by decide)))
  | inner hshape _ ih =>
    obtain ⟨entries, hget, hinner⟩ := onlyBase?_inv (PropertyShape.composite_inv hshape)
    exact ih (.part (hinner.trans (hstems.get? hget (by decide))))

end SchemaClasses
