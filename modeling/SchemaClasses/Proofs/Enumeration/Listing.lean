import SchemaClasses.Proofs.Enumeration.Acceptance

/-!
# Values that fragments list

An item of `enum` is one value. An alternative of `anyOf` can list several, in its `enum` and with a
`const` beside it, but makes one entry, for the first of them. So the constants are the first
values, and an alternative with more than one leaves values out unless they come first in another.
-/

namespace SchemaClasses.Enumeration

def Entry.valuesOf (alternative : Json) : List Json :=
  (alternative.array? "enum").getD [] ++ (alternative.get? "const").toList

/-- The values that a fragment lists, together where one alternative lists them. -/
def valueLists (fragment : Json) : List (List Json) :=
  match fragment.array? "anyOf" with
  | some alternatives => alternatives.map Entry.valuesOf
  | none => ((fragment.array? "enum").getD []).map fun value => [value]

theorem Entry.literal_ofAlternative (outerType : Option String) (alternative : Json) :
    (ofAlternative outerType alternative).literal = (valuesOf alternative).head? := by
  unfold ofAlternative valuesOf
  have hconst : (alternative.get? "const").toList.head? = alternative.get? "const" := by
    cases alternative.get? "const" <;> rfl
  cases alternative.array? "enum" with
  | none => simp [hconst]
  | some values => cases values <;> simp [hconst]

theorem map_literal_list (fragment : Json) :
    (Entry.list fragment).map (·.literal) = (valueLists fragment).map List.head? := by
  unfold Entry.list valueLists
  cases fragment.array? "anyOf" with
  | some alternatives =>
    dsimp only
    rw [List.map_map, List.map_map]
    exact List.map_congr_left fun alternative _ => Entry.literal_ofAlternative _ alternative
  | none =>
    dsimp only
    rw [List.map_map, List.map_map]
    rfl

variable {name scope : String} {fragment : Json} {default : Option Json} {e : Enumeration}

theorem map_toJson_variants_eq_heads (h : ofFragment name scope fragment default = .ok e) :
    e.variants.map (·.value.toJson) = (valueLists fragment).filterMap List.head? := by
  have hheads := congrArg (List.filterMap id) (map_literal_list fragment)
  rw [List.filterMap_map, List.filterMap_map] at hheads
  exact (map_toJson_variants h).trans hheads

/-- The first values of lists are all their values when each further value comes first somewhere. -/
theorem heads_eq_flatten_iff {α : Type} {lists : List (List α)} :
    (∀ value, value ∈ lists.filterMap List.head? ↔ value ∈ lists.flatten) ↔
      ∀ values ∈ lists, ∀ value ∈ values.tail, ∃ other ∈ lists, other.head? = some value := by
  simp only [List.mem_filterMap, List.mem_flatten]
  constructor
  · intro h values hvalues value htail
    exact (h value).mpr ⟨values, hvalues, List.mem_of_mem_tail htail⟩
  · intro h value
    constructor
    · rintro ⟨values, hvalues, hhead⟩
      exact ⟨values, hvalues, List.mem_of_mem_head? hhead⟩
    · rintro ⟨values, hvalues, hvalue⟩
      cases values with
      | nil => cases hvalue
      | cons first rest =>
        cases hvalue with
        | head => exact ⟨_, hvalues, rfl⟩
        | tail _ hrest => exact h _ hvalues value hrest

/-- The constants of an enumeration are the first values that its fragment lists: all items of
`enum`, and one value of each alternative that lists any. They are all listed values exactly when
every further value of an alternative is the first one of some alternative. -/
theorem constants_eq_heads (h : ofFragment name scope fragment default = .ok e) :
    e.variants.map (·.value.toJson) = (valueLists fragment).filterMap List.head? ∧
    (fragment.array? "anyOf" = none →
      e.variants.map (·.value.toJson) = (fragment.array? "enum").getD []) ∧
    ((∀ value, value ∈ e.variants.map (·.value.toJson) ↔ value ∈ (valueLists fragment).flatten) ↔
      ∀ values ∈ valueLists fragment, ∀ value ∈ values.tail,
        ∃ other ∈ valueLists fragment, other.head? = some value) := by
  have hheads := map_toJson_variants_eq_heads h
  refine ⟨hheads, ?_, ?_⟩
  · intro hitems
    rw [hheads, valueLists, hitems]
    simp [List.filterMap_map, Function.comp_def]
  · rw [hheads]
    exact heads_eq_flatten_iff

theorem constants_eq_heads_modes :
    let fragment : Json := .obj [("anyOf", .arr [
      .obj [("const", .str "OPAQUE"), ("type", .str "string")],
      .obj [("enum", .arr [.str "MASK"])],
      .obj [("type", .str "string")]])]
    ∃ e, ofFragment "AlphaMode" "CesiumGltf::Material" fragment none = .ok e ∧
      valueLists fragment = [[.str "OPAQUE"], [.str "MASK"], []] ∧
      ∀ value, value ∈ e.variants.map (·.value.toJson) ↔ value ∈ (valueLists fragment).flatten := by
  intro fragment
  obtain ⟨e, hread⟩ : ∃ e, ofFragment "AlphaMode" "CesiumGltf::Material" fragment none = .ok e :=
    ⟨_, rfl⟩
  have hlists : valueLists fragment = [[.str "OPAQUE"], [.str "MASK"], []] := rfl
  obtain ⟨-, -, hall⟩ := constants_eq_heads hread
  refine ⟨e, hread, hlists, hall.mpr ?_⟩
  simp [hlists]

/-- An alternative that lists two values makes one constant. -/
theorem value_left_out :
    let fragment : Json := .obj [("type", .str "string"), ("anyOf", .arr [
      .obj [("enum", .arr [.str "A", .str "B"])]])]
    ∃ e, ofFragment "Mode" "CesiumGltf" fragment none = .ok e ∧ isEnumeration fragment = true ∧
      .str "B" ∈ (valueLists fragment).flatten ∧
      .str "B" ∉ e.variants.map (·.value.toJson) := by
  intro fragment
  obtain ⟨e, hread⟩ : ∃ e, ofFragment "Mode" "CesiumGltf" fragment none = .ok e := ⟨_, rfl⟩
  have hlists : valueLists fragment = [[.str "A", .str "B"]] := rfl
  have hheads := map_toJson_variants_eq_heads hread
  rw [hlists] at hheads
  refine ⟨e, hread, rfl, by simp [hlists], ?_⟩
  simp [hheads]

end SchemaClasses.Enumeration
