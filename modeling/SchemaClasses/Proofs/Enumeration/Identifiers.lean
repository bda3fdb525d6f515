import Mathlib.Data.List.Nodup
import SchemaClasses.Proofs.Enumeration.Acceptance
import SchemaClasses.Text.Digits

/-!
# Identifiers of constants

An identifier keeps the letters and digits of the text that a constant is named after, and no more,
so different constants can come to the same identifier. They do exactly when their texts are alike.
Where no two constants with different values have texts that are alike, identifiers tell the values
apart.
-/

namespace SchemaClasses

namespace Naming

/-- The characters of a text as an identifier has them: what is no letter or digit is an underscore.
-/
def wordChars (text : String) : List Char :=
  text.toList.map fun c => if isWordChar c then c else '_'

def needsMark : List Char → Bool
  | [] => true
  | c :: _ => c.isDigit

/-- Two texts have the same characters in an identifier, or one starts with an underscore more than
the other, which needs one before it. -/
inductive Alike (text other : String) : Prop
  | same : wordChars text = wordChars other → Alike text other
  | marked : needsMark (wordChars text) = true → wordChars other = '_' :: wordChars text →
      Alike text other
  | marking : needsMark (wordChars other) = true → wordChars text = '_' :: wordChars other →
      Alike text other

theorem toList_identifier (text : String) :
    (identifier text).toList =
      if needsMark (wordChars text) then '_' :: wordChars text else wordChars text := by
  unfold identifier
  change (match wordChars text with
    | [] => "_"
    | c :: _ => String.ofList (if c.isDigit then '_' :: wordChars text else wordChars text)).toList
      = _
  cases h : wordChars text with
  | nil => rfl
  | cons c rest => rw [String.toList_ofList, needsMark]

/-- Identifiers are the same exactly for texts that are alike. -/
theorem identifier_eq_iff {text other : String} :
    identifier text = identifier other ↔ Alike text other := by
  rw [← String.toList_inj, toList_identifier, toList_identifier]
  have hunderscore (chars : List Char) : needsMark ('_' :: chars) = false := rfl
  constructor
  · intro h
    split at h <;> split at h
    · exact .same (List.cons.inj h).2
    · exact .marked ‹_› h.symm
    · exact .marking ‹_› h
    · exact .same h
  · rintro (h | ⟨hmark, h⟩ | ⟨hmark, h⟩)
    · rw [h]
    · rw [h, hunderscore, hmark]
      rfl
    · rw [h, hunderscore, hmark]
      rfl

theorem wordChars_repr (n : Nat) :
    wordChars n.repr = n.repr.toList ∧ needsMark n.repr.toList = true := by
  have hdigit : ∀ c ∈ n.repr.toList, c.isDigit = true := fun c => Text.isDigit_of_mem_repr
  rw [wordChars]
  constructor
  · have hword : ∀ c ∈ n.repr.toList, isWordChar c = true := fun c hc => by
      simp [isWordChar, Char.isAlphanum, hdigit c hc]
    exact (List.map_congr_left fun c hc => if_pos (hword c hc)).trans (List.map_id _)
  · have hne : n.repr.toList ≠ [] := by simp [Nat.toDigits_ne_nil]
    obtain ⟨c, rest, hdigits⟩ := List.exists_cons_of_ne_nil hne
    rw [hdigits] at hdigit ⊢
    exact hdigit c List.mem_cons_self

/-- An integer is named after its digits: an underscore stands for its sign, or goes before the
digits where it has none. -/
theorem identifier_repr (value : Int) : identifier value.repr = "_" ++ value.natAbs.repr := by
  obtain ⟨hchars, hmark⟩ := wordChars_repr value.natAbs
  have hsign : ("_" ++ value.natAbs.repr).toList = '_' :: value.natAbs.repr.toList := by
    rw [String.toList_append]
    rfl
  rw [← String.toList_inj, toList_identifier, hsign, Int.repr_eq_if]
  split
  · rw [show value.toNat = value.natAbs by omega, hchars, hmark, if_pos rfl]
  · have hminus : wordChars ("-" ++ value.natAbs.repr) = '_' :: value.natAbs.repr.toList := by
      rw [← hchars, wordChars, String.toList_append]
      rfl
    rw [show (-value).toNat = value.natAbs by omega, hminus]
    rfl

/-- Integers have the same identifier when they are equal or opposite. -/
theorem identifier_repr_eq_iff {value other : Int} :
    identifier value.repr = identifier other.repr ↔ value = other ∨ value = -other := by
  rw [identifier_repr, identifier_repr, String.append_right_inj, ← Int.natAbs_eq_natAbs_iff,
    Text.repr_injective.eq_iff]

end Naming

/-- The text that a constant is named after. -/
def Variant.text (v : Variant) : String :=
  match v.value with
  | .string value => value
  | .integer value => v.description.getD value.repr

namespace Enumeration

/-- Constants whose texts are alike have the same value. -/
def TellsApart (e : Enumeration) : Prop :=
  ∀ v ∈ e.variants, ∀ w ∈ e.variants, Naming.Alike v.text w.text → v.value = w.value

/-- Identifiers stand for values: constants of different values are declared under different
identifiers, the literals of a reader that are not the same are read as different constants, and the
default is one value. -/
structure Unambiguous (e : Enumeration) : Prop where
  declared : (e.variants.map (·.value)).Nodup → (e.variants.map (·.identifier)).Nodup
  read : ∀ reader, e.reader? = some reader → ∀ c ∈ reader.cases, ∀ c' ∈ reader.cases,
    c.literal ≠ c'.literal → c.identifier ≠ c'.identifier
  default : ∃! value, ∃ v ∈ e.variants, v.value = value ∧ e.defaultIdentifier = some v.identifier

variable {name scope : String} {fragment : Json} {default : Option Json} {e : Enumeration}
  {v w : Variant}

theorem exists_default (h : ofFragment name scope fragment default = .ok e) :
    ∃ v ∈ e.variants, e.defaultIdentifier = some v.identifier := by
  obtain ⟨v, hv, hchosen⟩ := isDefault_of_ofFragment h
  exact ⟨v, hv.mem, hchosen⟩

theorem identifier_eq (h : ofFragment name scope fragment default = .ok e) (hv : v ∈ e.variants) :
    v.identifier = Naming.identifier v.text := by
  obtain ⟨entry, -, hnames⟩ := exists_names h hv
  rw [hnames.identifier, Variant.text, hnames.description]
  cases v.value <;> rfl

theorem identifier_eq_identifier_iff (h : ofFragment name scope fragment default = .ok e)
    (hv : v ∈ e.variants) (hw : w ∈ e.variants) :
    v.identifier = w.identifier ↔ Naming.Alike v.text w.text := by
  rw [identifier_eq h hv, identifier_eq h hw, Naming.identifier_eq_iff]

theorem tellsApart_iff (h : ofFragment name scope fragment default = .ok e) :
    e.TellsApart ↔
      ∀ v ∈ e.variants, ∀ w ∈ e.variants, v.value ≠ w.value → v.identifier ≠ w.identifier := by
  constructor
  · intro hapart v hv w hw hne halike
    exact hne (hapart v hv w hw ((identifier_eq_identifier_iff h hv hw).mp halike))
  · intro hapart v hv w hw halike
    by_contra hne
    exact hapart v hv w hw hne ((identifier_eq_identifier_iff h hv hw).mpr halike)

theorem exists_of_mem_cases {reader : LiteralReader} (hreader : e.reader? = some reader)
    {c : LiteralCase} (hc : c ∈ reader.cases) :
    ∃ v ∈ e.variants, v.value = .string c.literal ∧ v.identifier = c.identifier := by
  unfold reader? at hreader
  split at hreader
  · cases hreader
  · cases hreader
    obtain ⟨v, hv, hcase⟩ := List.mem_filterMap.mp hc
    unfold caseOf? at hcase
    split at hcase
    · rename_i hvalue
      cases hcase
      exact ⟨v, hv, hvalue, rfl⟩
    · cases hcase

theorem TellsApart.unambiguous (hapart : e.TellsApart)
    (h : ofFragment name scope fragment default = .ok e) : e.Unambiguous := by
  have heq {v w : Variant} (hv : v ∈ e.variants) (hw : w ∈ e.variants)
      (hsame : v.identifier = w.identifier) : v.value = w.value :=
    hapart v hv w hw ((identifier_eq_identifier_iff h hv hw).mp hsame)
  constructor
  · intro hvalues
    have hinj := (List.nodup_map_iff_inj_on (List.Nodup.of_map _ hvalues)).mp hvalues
    exact (List.Nodup.of_map _ hvalues).map_on fun v hv w hw hsame =>
      hinj v hv w hw (heq hv hw hsame)
  · intro reader hreader c hc c' hc' hne hsame
    obtain ⟨v, hv, hvalue, hidentifier⟩ := exists_of_mem_cases hreader hc
    obtain ⟨w, hw, hvalue', hidentifier'⟩ := exists_of_mem_cases hreader hc'
    have hsame := heq hv hw (hidentifier.trans (hsame.trans hidentifier'.symm))
    rw [hvalue, hvalue'] at hsame
    exact hne (Literal.string.inj hsame)
  · obtain ⟨v, hv, hdefault⟩ := exists_default h
    refine ⟨v.value, ⟨v, hv, rfl, hdefault⟩, ?_⟩
    rintro _ ⟨w, hw, rfl, hdefault'⟩
    exact heq hw hv (Option.some.inj (hdefault'.symm.trans hdefault))

/-- Constants have the same identifier exactly when their texts are alike; integers that are named
after their digits do when they are equal or opposite. Different values have different identifiers
exactly when texts tell them apart, and then identifiers stand for values. -/
theorem identifiers_apart (h : ofFragment name scope fragment default = .ok e) :
    (∀ v ∈ e.variants, ∀ w ∈ e.variants,
      v.identifier = w.identifier ↔ Naming.Alike v.text w.text) ∧
    (∀ v ∈ e.variants, ∀ w ∈ e.variants, ∀ i j, v.value = .integer i → w.value = .integer j →
      v.description = none → w.description = none →
      (v.identifier = w.identifier ↔ i = j ∨ i = -j)) ∧
    ((∀ v ∈ e.variants, ∀ w ∈ e.variants, v.value ≠ w.value → v.identifier ≠ w.identifier) ↔
      e.TellsApart) ∧
    (e.TellsApart → e.Unambiguous) := by
  refine ⟨?_, ?_, (tellsApart_iff h).symm, fun hapart => hapart.unambiguous h⟩
  · intro v hv w hw
    exact identifier_eq_identifier_iff h hv hw
  · intro v hv w hw i j hi hj hplain hplain'
    rw [identifier_eq h hv, identifier_eq h hw, Variant.text, Variant.text, hi, hj, hplain, hplain']
    exact Naming.identifier_repr_eq_iff

theorem identifiers_apart_mimeTypes :
    let fragment : Json := .obj [("enum", .arr [.str "image/jpeg", .str "image/png"])]
    ∃ e, ofFragment "MimeType" "CesiumGltf::Image" fragment none = .ok e ∧
      e.variants.map (·.identifier) = ["image_jpeg", "image_png"] ∧ e.TellsApart ∧
      e.Unambiguous := by
  intro fragment
  obtain ⟨e, hread⟩ : ∃ e, ofFragment "MimeType" "CesiumGltf::Image" fragment none = .ok e :=
    ⟨_, rfl⟩
  obtain ⟨-, -, hiff, hunambiguous⟩ := identifiers_apart hread
  cases hread
  have hapart := hiff.mp (by decide)
  exact ⟨_, rfl, by decide, hapart, hunambiguous hapart⟩

/-- Different values can have the same identifier. -/
theorem identifiers_alike :
    let fragment : Json := .obj [("type", .str "string"), ("enum", .arr [.str "a-b", .str "a_b"])]
    ∃ e, ofFragment "Mode" "CesiumGltf" fragment none = .ok e ∧
      e.variants.map (·.value) = [.string "a-b", .string "a_b"] ∧
      e.variants.map (·.identifier) = ["a_b", "a_b"] ∧
      ¬ ∀ v ∈ e.variants, ∀ w ∈ e.variants, v.value ≠ w.value → v.identifier ≠ w.identifier := by
  intro fragment
  exact ⟨_, rfl, by decide, by decide, by decide⟩

end Enumeration

end SchemaClasses
