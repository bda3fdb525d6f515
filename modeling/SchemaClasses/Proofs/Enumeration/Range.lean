import SchemaClasses.Descriptor.Build
import SchemaClasses.Proofs.Enumeration.Acceptance

/-!
# Integers that the runtime type holds

The integers of an enumeration have 64 bits, and every one of them can be listed. Generated code
keeps and reads them as `int32_t`, which is not looked at when a fragment is read. So the runtime
type holds the constants exactly when the fragment lists no integer beyond 32 bits.
-/

namespace SchemaClasses

/-- The least and the greatest integer that a type of generated code holds. -/
def integerBounds? : String → Option (Int × Int)
  | "int32_t" => some (-0x80000000, 0x7FFFFFFF)
  | "int64_t" => some (-0x8000000000000000, 0x7FFFFFFFFFFFFFFF)
  | _ => none

/-- The constants that a type of generated code holds. -/
def Literal.HeldBy (runtimeType : String) : Literal → Prop
  | .integer value => ∃ low high, integerBounds? runtimeType = some (low, high) ∧
      low ≤ value ∧ value ≤ high
  | .string _ => runtimeType = "std::string"

theorem Literal.heldBy_int32_iff {value : Int} :
    HeldBy "int32_t" (.integer value) ↔ -0x80000000 ≤ value ∧ value ≤ 0x7FFFFFFF := by
  simp [HeldBy, integerBounds?, eq_comm]

theorem Literal.heldBy_int64_iff {value : Int} :
    HeldBy "int64_t" (.integer value) ↔
      -0x8000000000000000 ≤ value ∧ value ≤ 0x7FFFFFFFFFFFFFFF := by
  simp [HeldBy, integerBounds?, eq_comm]

namespace Enumeration

/-- The type in which generated code keeps the values of an integer enumeration is the one in which
it reads them. -/
theorem facets_of_integer {e : Enumeration} (hinteger : e.constantType = .integer) (naming : Naming)
    (owner : String) (isOptional : Bool) :
    let facets := (Descriptor.enumeration naming owner e isOptional).facets
    facets.valueType = e.constantType.runtimeType ∧
      facets.readerType =
        "CesiumJsonReader::IntegerJsonHandler<" ++ e.constantType.runtimeType ++ ">" := by
  refine ⟨rfl, ?_⟩
  change Descriptor.enumerationReader e = _
  rw [Descriptor.enumerationReader, hinteger]
  rfl

/-- Every integer of 64 bits can be a constant. -/
theorem exists_integer {value : Int} (hrange : Literal.HeldBy "int64_t" (.integer value))
    (name scope : String) (default : Option Json) :
    ∃ e, ofFragment name scope
        (.obj [("type", .str "integer"), ("enum", .arr [.num (.int value)])]) default = .ok e ∧
      e.constantType = .integer ∧ e.variants.map (·.value) = [.integer value] := by
  obtain ⟨hlow, hhigh⟩ := Literal.heldBy_int64_iff.mp hrange
  have hagree : Entry.AgreeOn .integer
      (Entry.list (.obj [("type", .str "integer"), ("enum", .arr [.num (.int value)])])) := by
    change Entry.AgreeOn .integer [⟨some (.num (.int value)), none, some "integer"⟩]
    constructor
    · simp [ConstantType.name]
    · simp
    · simpa using ⟨.integer value, .integer hlow hhigh, rfl⟩
    · simp
  obtain ⟨e, hread⟩ := exists_of_agreeOn hagree name scope default
  refine ⟨e, hread, (agreeOn_of_ofFragment hread).unique hagree |>.symm, ?_⟩
  have hvalues : (e.variants.map (·.value)).map Literal.toJson =
      [Literal.integer value].map Literal.toJson := by
    rw [List.map_map]
    exact map_toJson_variants hread
  exact List.map_injective_iff.mpr Literal.toJson_injective hvalues

variable {name scope : String} {fragment : Json} {default : Option Json} {e : Enumeration}

theorem exists_integer_of_mem (h : ofFragment name scope fragment default = .ok e)
    (hinteger : e.constantType = .integer) {v : Variant} (hv : v ∈ e.variants) :
    ∃ value, v.value = .integer value ∧ -0x8000000000000000 ≤ value ∧
      value ≤ 0x7FFFFFFFFFFFFFFF := by
  have hisOf := isOf_of_mem h hv
  rw [hinteger] at hisOf
  cases hvalue : v.value with
  | integer value =>
    rw [hvalue] at hisOf
    cases hisOf with
    | integer hlow hhigh => exact ⟨value, rfl, hlow, hhigh⟩
  | string text =>
    rw [hvalue] at hisOf
    cases hisOf

theorem exists_variant_integer_iff (h : ofFragment name scope fragment default = .ok e)
    {value : Int} : (∃ v ∈ e.variants, v.value = .integer value) ↔
      ∃ entry ∈ Entry.list fragment, entry.literal = some (.num (.int value)) := by
  have hliterals := congrArg (Json.num (.int value) ∈ ·) (map_toJson_variants h)
  simp only [List.mem_map, List.mem_filterMap] at hliterals
  rw [← hliterals]
  have hwritten (v : Variant) :
      v.value = .integer value ↔ v.value.toJson = .num (.int value) :=
    (Literal.toJson_injective.eq_iff (b := .integer value)).symm
  simp only [hwritten]

/-- The values of an integer enumeration are kept and read as `int32_t`, while its constants are
integers of 64 bits. The runtime type holds them all exactly when it holds every integer that an
entry has for its literal. -/
theorem heldBy_runtimeType_iff (h : ofFragment name scope fragment default = .ok e)
    (hinteger : e.constantType = .integer) :
    e.constantType.runtimeType = "int32_t" ∧
    (∀ naming owner isOptional,
      let facets := (Descriptor.enumeration naming owner e isOptional).facets
      facets.valueType = e.constantType.runtimeType ∧
        facets.readerType =
          "CesiumJsonReader::IntegerJsonHandler<" ++ e.constantType.runtimeType ++ ">") ∧
    (∀ v ∈ e.variants, v.value.HeldBy "int64_t") ∧
    ((∀ v ∈ e.variants, v.value.HeldBy e.constantType.runtimeType) ↔
      ∀ entry ∈ Entry.list fragment, ∀ value, entry.literal = some (.num (.int value)) →
        -0x80000000 ≤ value ∧ value ≤ 0x7FFFFFFF) := by
  have hruntime : e.constantType.runtimeType = "int32_t" := by
    rw [hinteger]
    rfl
  refine ⟨hruntime, facets_of_integer hinteger, ?_, ?_⟩
  · intro v hv
    obtain ⟨value, hvalue, hrange⟩ := exists_integer_of_mem h hinteger hv
    rw [hvalue]
    exact Literal.heldBy_int64_iff.mpr hrange
  · rw [hruntime]
    constructor
    · intro hheld entry hentry value hliteral
      obtain ⟨v, hv, hvalue⟩ := (exists_variant_integer_iff h).mpr ⟨entry, hentry, hliteral⟩
      have hfits := hheld v hv
      rw [hvalue] at hfits
      exact Literal.heldBy_int32_iff.mp hfits
    · intro hlisted v hv
      obtain ⟨value, hvalue, -⟩ := exists_integer_of_mem h hinteger hv
      obtain ⟨entry, hentry, hliteral⟩ := (exists_variant_integer_iff h).mp ⟨v, hv, hvalue⟩
      rw [hvalue]
      exact Literal.heldBy_int32_iff.mpr (hlisted entry hentry value hliteral)

theorem heldBy_runtimeType_iff_bounds :
    let fragment : Json := .obj [("type", .str "integer"),
      ("enum", .arr [.num (.int (-0x80000000)), .num (.int 0x7FFFFFFF)])]
    ∃ e, ofFragment "Limit" "CesiumGltf" fragment none = .ok e ∧ e.constantType = .integer ∧
      ∀ v ∈ e.variants, v.value.HeldBy e.constantType.runtimeType := by
  intro fragment
  obtain ⟨e, hread⟩ : ∃ e, ofFragment "Limit" "CesiumGltf" fragment none = .ok e := ⟨_, rfl⟩
  have hinteger : e.constantType = .integer := by
    cases hread
    rfl
  have hlist : Entry.list fragment =
      [⟨some (.num (.int (-0x80000000))), none, some "integer"⟩,
        ⟨some (.num (.int 0x7FFFFFFF)), none, some "integer"⟩] := rfl
  obtain ⟨-, -, -, hheld⟩ := heldBy_runtimeType_iff hread hinteger
  refine ⟨e, hread, hinteger, hheld.mpr ?_⟩
  simp [hlist]

/-- The runtime type does not hold a constant beyond 32 bits. -/
theorem beyond_runtimeType :
    ∃ e, ofFragment "Limit" "CesiumGltf"
        (.obj [("type", .str "integer"), ("enum", .arr [.num (.int 0x80000000)])]) none = .ok e ∧
      e.constantType = .integer ∧
      ∃ v ∈ e.variants, v.value = .integer 0x80000000 ∧
        ¬ v.value.HeldBy e.constantType.runtimeType := by
  have hrange : Literal.HeldBy "int64_t" (.integer 0x80000000) :=
    Literal.heldBy_int64_iff.mpr (by omega)
  obtain ⟨e, hread, hinteger, hvalues⟩ := exists_integer hrange "Limit" "CesiumGltf" none
  have hmem : Literal.integer 0x80000000 ∈ e.variants.map (·.value) := by simp [hvalues]
  obtain ⟨v, hv, hvalue⟩ := List.mem_map.mp hmem
  refine ⟨e, hread, hinteger, v, hv, hvalue, ?_⟩
  rw [hvalue, hinteger]
  change ¬ Literal.HeldBy "int32_t" _
  rw [Literal.heldBy_int32_iff]
  omega

end Enumeration

end SchemaClasses
