import Mathlib.Data.List.Forall2
import SchemaClasses.Enumeration.Entry

/-!
# What entries make

Entries are read twice: once for the type they agree on, and once for the constants of that type.
The lemmas here say when each reading succeeds and what it gives then, and `ofFragment_reads` says
what an enumeration that was read is made of.
-/

namespace SchemaClasses

theorem ConstantType.ofName?_name (type : ConstantType) : ofName? type.name = some type := by
  cases type <;> rfl

theorem ConstantType.ofName?_eq_some_iff {text : String} {type : ConstantType} :
    ofName? text = some type ↔ text = type.name := by
  constructor
  · intro h
    unfold ofName? at h
    split at h
    · exact congrArg name (Option.some.inj h)
    · exact congrArg name (Option.some.inj h)
    · cases h
  · rintro rfl
    exact ofName?_name type

/-- The JSON values of a type, integers of any size among them. -/
inductive ConstantType.Describes : ConstantType → Json → Prop
  | integer (value : Int) : Describes .integer (.num (.int value))
  | string (value : String) : Describes .string (.str value)

namespace Literal

/-- The constants of a type. Integers have 64 bits and a sign. -/
inductive IsOf : ConstantType → Literal → Prop
  | integer {value : Int} : -0x8000000000000000 ≤ value → value ≤ 0x7FFFFFFFFFFFFFFF →
      IsOf .integer (.integer value)
  | string (value : String) : IsOf .string (.string value)

theorem toJson_injective : Function.Injective toJson := by
  intro value other h
  cases value <;> cases other <;> simp_all [toJson]

/-- A JSON value is read as a constant of a type when it is how that constant is written. -/
theorem ofJson?_eq_some_iff {type : ConstantType} {json : Json} {value : Literal} :
    ofJson? type json = some value ↔ IsOf type value ∧ value.toJson = json := by
  constructor
  · intro h
    cases type with
    | integer =>
      obtain ⟨i, hi, rfl⟩ := Option.map_eq_some_iff.mp h
      unfold Json.asInt64? at hi
      split at hi
      · split at hi
        · rename_i hrange
          obtain rfl := Option.some.inj hi
          exact ⟨.integer hrange.1 hrange.2, rfl⟩
        · cases hi
      · cases hi
    | string =>
      obtain ⟨text, htext, rfl⟩ := Option.map_eq_some_iff.mp h
      unfold Json.asString? at htext
      split at htext
      · obtain rfl := Option.some.inj htext
        exact ⟨.string _, rfl⟩
      · cases htext
  · rintro ⟨h, rfl⟩
    cases h with
    | integer hlow hhigh => simp [ofJson?, toJson, Json.asInt64?, hlow, hhigh]
    | string => rfl

end Literal

namespace Enumeration

theorem bind_eq_ok_iff {ε α β : Type} {first : Except ε α} {next : α → Except ε β} {result : β} :
    first >>= next = .ok result ↔ ∃ value, first = .ok value ∧ next value = .ok result := by
  cases first <;> simp [bind, Except.bind]

namespace Entry

variable {type : ConstantType} {entry : Entry} {entries : List Entry} {found : List Variant}

theorem literalType?_eq_some_iff {literal : Json} :
    literalType? literal = some type ↔ type.Describes literal := by
  constructor
  · intro h
    unfold literalType? at h
    split at h
    · obtain rfl := Option.some.inj h
      exact .string _
    · obtain rfl := Option.some.inj h
      exact .integer _
    · cases h
  · rintro (_ | _) <;> rfl

/-- An entry is for a type when it declares it, or when it declares none and its literal is of that
type. -/
theorem type_eq_some_iff :
    entry.type = .ok (some type) ↔ entry.declared = some type.name ∨
      entry.declared = none ∧ ∃ literal, entry.literal = some literal ∧ type.Describes literal := by
  obtain ⟨literal, description, declared⟩ := entry
  unfold Entry.type
  cases declared with
  | some declared =>
    have hname : ConstantType.ofName? declared = some type ↔ declared = type.name :=
      ConstantType.ofName?_eq_some_iff
    cases h : ConstantType.ofName? declared <;> simp_all
  | none =>
    cases literal with
    | none => simp
    | some literal =>
      have hliteral : literalType? literal = some type ↔ type.Describes literal :=
        literalType?_eq_some_iff
      cases h : literalType? literal <;> simp_all

theorem type_eq_none_iff :
    entry.type = .ok none ↔ entry.declared = none ∧ entry.literal = none := by
  obtain ⟨literal, description, declared⟩ := entry
  unfold Entry.type
  cases declared with
  | some declared => cases h : ConstantType.ofName? declared <;> simp [h]
  | none =>
    cases literal with
    | none => simp
    | some literal => cases h : literalType? literal <;> simp [h]

/-- An entry that has no say in the type or is for it. -/
def Admits (type : ConstantType) (entry : Entry) : Prop :=
  entry.type = .ok none ∨ entry.type = .ok (some type)

/-- The type agreed on so far goes on when the entry has no say, and otherwise must be the entry's.
-/
theorem agree_eq (agreed : Option ConstantType) (entry : Entry) :
    agree agreed entry = match entry.type, agreed with
      | .error fault, _ => .error fault
      | .ok none, agreed => .ok agreed
      | .ok (some type), none => .ok (some type)
      | .ok (some type), some earlier =>
        if earlier = type then .ok (some earlier) else .error .mixedTypes := by
  unfold agree
  cases entry.type with
  | error fault => rfl
  | ok said => cases said <;> cases agreed <;> rfl

/-- Entries agree on a type when all admit it and, unless it is agreed on already, one is for it. -/
theorem foldlM_agree_iff {agreed : Option ConstantType} :
    entries.foldlM agree agreed = .ok (some type) ↔
      (∀ entry ∈ entries, entry.Admits type) ∧ (∀ earlier ∈ agreed, earlier = type) ∧
        (agreed = none → ∃ entry ∈ entries, entry.type = .ok (some type)) := by
  induction entries generalizing agreed with
  | nil => cases agreed <;> simp [pure, Except.pure]
  | cons entry entries ih =>
    rw [List.foldlM_cons, bind_eq_ok_iff]
    simp only [agree_eq, ih, List.mem_cons, forall_eq_or_imp, exists_eq_or_imp, Admits]
    cases hentry : entry.type with
    | error fault => simp
    | ok said =>
      cases said with
      | none => cases agreed <;> simp
      | some said =>
        cases agreed with
        | none =>
          suffices h : ∀ rest : Prop, rest ∧ said = type ↔ (said = type ∧ rest) ∧
              (said = type ∨ ∃ entry ∈ entries, entry.type = .ok (some type)) by simpa using h _
          exact fun rest => ⟨fun h => ⟨h.symm, .inl h.2⟩, fun h => h.1.symm⟩
        | some earlier =>
          by_cases hsame : earlier = said
          · subst hsame
            simp [and_comm]
          · simpa [hsame] using fun hsaid _ hearlier => hsame (hearlier.trans hsaid.symm)

def variants (type : ConstantType) (entries : List Entry) :
    Except EnumerationFault (List Variant) :=
  (entries.mapM (variant type)).map (·.filterMap id)

theorem variants_nil (type : ConstantType) : variants type [] = .ok [] := rfl

theorem variants_cons (type : ConstantType) (entry : Entry) (entries : List Entry) :
    variants type (entry :: entries) = do
      let first ← entry.variant type
      let rest ← variants type entries
      return first.toList ++ rest := by
  unfold variants
  rw [List.mapM_cons]
  cases entry.variant type with
  | error fault => rfl
  | ok first =>
    cases entries.mapM (variant type) with
    | error fault => rfl
    | ok rest => cases first <;> rfl

/-- An entry names a constant: its literal is the constant's value, and its description is kept. -/
structure Names (type : ConstantType) (entry : Entry) (v : Variant) : Prop where
  literal : entry.literal = some v.value.toJson
  isOf : v.value.IsOf type
  identifier : v.identifier = entry.identifier v.value
  description : v.description = entry.description

theorem variant_eq_some_iff {v : Variant} :
    entry.variant type = .ok (some v) ↔ Names type entry v := by
  unfold variant
  constructor
  · intro h
    split at h
    · cases h
    · rename_i literal hliteral
      split at h
      · rename_i value hvalue
        obtain ⟨hisOf, hwritten⟩ := Literal.ofJson?_eq_some_iff.mp hvalue
        cases h
        exact ⟨hliteral.trans (congrArg some hwritten.symm), hisOf, rfl, rfl⟩
      · cases h
  · rintro ⟨hliteral, hisOf, hidentifier, hdescription⟩
    rw [hliteral]
    dsimp only
    rw [Literal.ofJson?_eq_some_iff.mpr ⟨hisOf, rfl⟩]
    dsimp only
    rw [← hidentifier, ← hdescription]

theorem variant_of_none (h : entry.literal = none) (type : ConstantType) :
    entry.variant type = .ok none := by
  rw [variant, h]

theorem variant_ne_none {literal : Json} (h : entry.literal = some literal) :
    entry.variant type ≠ .ok none := by
  rw [variant, h]
  dsimp only
  cases Literal.ofJson? type literal <;> simp

/-- The constants are those that the entries with a literal name, one each and in order. -/
theorem variants_eq_ok_iff :
    variants type entries = .ok found ↔
      List.Forall₂ (Names type) (entries.filter (·.literal.isSome)) found := by
  induction entries generalizing found with
  | nil =>
    rw [variants_nil, List.filter_nil, List.forall₂_nil_left_iff, Except.ok.injEq, eq_comm]
  | cons entry entries ih =>
    rw [variants_cons]
    cases hliteral : entry.literal with
    | none =>
      rw [variant_of_none hliteral, List.filter_cons_of_neg (by simp [hliteral]), ← ih]
      cases variants type entries <;> rfl
    | some literal =>
      rw [List.filter_cons_of_pos (by simp [hliteral]), List.forall₂_cons_left_iff]
      simp only [bind_eq_ok_iff, ← ih, ← variant_eq_some_iff]
      constructor
      · rintro ⟨first, hfirst, rest, hrest, hfound⟩
        cases first with
        | none => exact absurd hfirst (variant_ne_none hliteral)
        | some v => exact ⟨v, rest, hfirst, hrest, (Except.ok.inj hfound).symm⟩
      · rintro ⟨v, rest, hfirst, hrest, rfl⟩
        exact ⟨some v, hfirst, rest, hrest, rfl⟩

/-- The values of the constants are the literals of the entries. -/
theorem map_toJson_of_variants (h : variants type entries = .ok found) :
    found.map (·.value.toJson) = entries.filterMap (·.literal) := by
  have hkept : (entries.filter (·.literal.isSome)).filterMap (·.literal) =
      entries.filterMap (·.literal) := by
    rw [List.filterMap_filter]
    refine List.filterMap_congr fun entry _ => ?_
    cases entry.literal <;> rfl
  replace h := variants_eq_ok_iff.mp h
  rw [← hkept]
  generalize entries.filter (·.literal.isSome) = kept at h
  induction h with
  | nil => rfl
  | cons hnames _ ih => rw [List.map_cons, List.filterMap_cons_some hnames.literal, ih]

theorem names_of_mem_variants (h : variants type entries = .ok found) {v : Variant}
    (hv : v ∈ found) : ∃ entry ∈ entries, Names type entry v := by
  replace h := variants_eq_ok_iff.mp h
  suffices hkept : ∃ entry ∈ entries.filter (·.literal.isSome), Names type entry v by
    obtain ⟨entry, hentry, hnames⟩ := hkept
    exact ⟨entry, List.mem_of_mem_filter hentry, hnames⟩
  generalize entries.filter (·.literal.isSome) = kept at h
  induction h with
  | nil => cases hv
  | cons hnames _ ih =>
    rcases List.mem_cons.mp hv with rfl | hv
    · exact ⟨_, List.mem_cons_self, hnames⟩
    · obtain ⟨entry, hentry, hnames⟩ := ih hv
      exact ⟨entry, List.mem_cons_of_mem _ hentry, hnames⟩

/-- Entries have constants when each literal is a constant of the type. -/
theorem exists_variants (h : ∀ entry ∈ entries, ∀ literal, entry.literal = some literal →
    ∃ value, Literal.IsOf type value ∧ value.toJson = literal) :
    ∃ found, variants type entries = .ok found := by
  simp only [variants_eq_ok_iff]
  induction entries with
  | nil => exact ⟨[], .nil⟩
  | cons entry entries ih =>
    obtain ⟨rest, hrest⟩ := ih fun other hother => h other (List.mem_cons_of_mem _ hother)
    cases hliteral : entry.literal with
    | none =>
      rw [List.filter_cons_of_neg (by simp [hliteral])]
      exact ⟨rest, hrest⟩
    | some literal =>
      obtain ⟨value, hisOf, rfl⟩ := h entry List.mem_cons_self literal hliteral
      rw [List.filter_cons_of_pos (by simp [hliteral])]
      exact ⟨⟨entry.identifier value, value, entry.description⟩ :: rest,
        .cons ⟨hliteral, hisOf, rfl, rfl⟩ hrest⟩

end Entry

/-- The enumeration of a fragment whose entries agree on a type. -/
theorem ofFragment_eq {type : ConstantType} {fragment : Json}
    (h : (Entry.list fragment).foldlM Entry.agree none = .ok (some type)) (name scope : String)
    (default : Option Json) :
    ofFragment name scope fragment default = do
      let found ← Entry.variants type (Entry.list fragment)
      if found.isEmpty then throw .noConstant
      else return {
        name := name
        scope := scope
        constantType := type
        variants := found
        defaultIdentifier := defaultOf type found default
        doc := .ofFragment fragment } := by
  unfold ofFragment Entry.variants
  simp only [h, bind, Except.bind]
  cases (Entry.list fragment).mapM (Entry.variant type) <;> rfl

/-- What an enumeration was read from: entries that agree on its type and name its constants, at
least one, among which the default is chosen. -/
theorem ofFragment_reads {name scope : String} {fragment : Json} {default : Option Json}
    {e : Enumeration} (h : ofFragment name scope fragment default = .ok e) :
    (Entry.list fragment).foldlM Entry.agree none = .ok (some e.constantType) ∧
      Entry.variants e.constantType (Entry.list fragment) = .ok e.variants ∧ e.variants ≠ [] ∧
      e.defaultIdentifier = defaultOf e.constantType e.variants default := by
  have hagree : ∃ type, (Entry.list fragment).foldlM Entry.agree none = .ok (some type) := by
    obtain ⟨agreed, hagreed, hrest⟩ := bind_eq_ok_iff.mp h
    cases agreed with
    | none => cases hrest
    | some type => exact ⟨type, hagreed⟩
  obtain ⟨type, hagree⟩ := hagree
  rw [ofFragment_eq hagree] at h
  obtain ⟨found, hfound, hrest⟩ := bind_eq_ok_iff.mp h
  split at hrest
  · cases hrest
  · rename_i hsome
    cases hrest
    exact ⟨hagree, hfound, by simpa using hsome, rfl⟩

theorem ofFragment_inv {name scope : String} {fragment : Json} {default : Option Json}
    {e : Enumeration} (h : ofFragment name scope fragment default = .ok e) :
    e.variants ≠ [] ∧ e.defaultIdentifier = defaultOf e.constantType e.variants default :=
  (ofFragment_reads h).2.2

end Enumeration

end SchemaClasses
