import SchemaClasses.Proofs.Drafting.Inversion
import SchemaClasses.Proofs.Enumeration.Entries

/-!
# Fragments that list an enumeration

A fragment lists an enumeration exactly when its entries agree on one type, every literal is a
constant of that type, and there is a literal at all. Nothing is left out then: the constants have
the literals as their values, one each and in order. Otherwise one warning is all that comes of it.
-/

namespace SchemaClasses

namespace Enumeration

/-- Entries that make an enumeration of a type: those that declare a type declare this one, the
literals of the others are of this type, every literal is one of its constants, and one entry has a
literal. -/
structure Entry.AgreeOn (type : ConstantType) (entries : List Entry) : Prop where
  declared : ∀ entry ∈ entries, ∀ text, entry.declared = some text → text = type.name
  undeclared : ∀ entry ∈ entries, entry.declared = none →
    ∀ literal, entry.literal = some literal → type.Describes literal
  constant : ∀ entry ∈ entries, ∀ literal, entry.literal = some literal →
    ∃ value, Literal.IsOf type value ∧ value.toJson = literal
  nonempty : ∃ entry ∈ entries, entry.literal.isSome

/-- The constant that stands for an absent value: the first one that has the default for its value,
or the first of all when none has it. -/
inductive IsDefault (default : Option Json) (variants : List Variant) (v : Variant) : Prop
  | declared (earlier later : List Variant) : variants = earlier ++ v :: later →
      default = some v.value.toJson → (∀ w ∈ earlier, w.value ≠ v.value) →
      IsDefault default variants v
  | first (rest : List Variant) : variants = v :: rest →
      (∀ w ∈ variants, default ≠ some w.value.toJson) → IsDefault default variants v

theorem IsDefault.mem {default : Option Json} {variants : List Variant} {v : Variant}
    (h : IsDefault default variants v) : v ∈ variants := by
  cases h with
  | declared earlier later hsplit => simp [hsplit]
  | first rest hsplit => simp [hsplit]

namespace Entry

variable {type other : ConstantType} {entry : Entry} {entries : List Entry}

theorem admits_iff :
    Admits type entry ↔ (∀ text, entry.declared = some text → text = type.name) ∧
      (entry.declared = none → ∀ literal, entry.literal = some literal →
        type.Describes literal) := by
  obtain ⟨literal, description, declared⟩ := entry
  unfold Admits
  rw [type_eq_none_iff, type_eq_some_iff]
  cases declared <;> cases literal <;> simp

theorem type_eq_of_admits (h : Admits type entry) (hliteral : entry.literal.isSome) :
    entry.type = .ok (some type) := by
  rcases h with h | h
  · simp [(type_eq_none_iff.mp h).2] at hliteral
  · exact h

theorem AgreeOn.foldlM_eq (h : AgreeOn type entries) :
    entries.foldlM agree none = .ok (some type) := by
  have hadmits : ∀ entry ∈ entries, Admits type entry := fun entry hentry =>
    admits_iff.mpr ⟨h.declared entry hentry, h.undeclared entry hentry⟩
  obtain ⟨entry, hentry, hliteral⟩ := h.nonempty
  have hfor := type_eq_of_admits (hadmits entry hentry) hliteral
  exact foldlM_agree_iff.mpr ⟨hadmits, by simp, fun _ => ⟨entry, hentry, hfor⟩⟩

theorem AgreeOn.unique (h : AgreeOn type entries) (h' : AgreeOn other entries) : other = type := by
  have heq := h'.foldlM_eq.symm.trans h.foldlM_eq
  exact Option.some.inj (Except.ok.inj heq)

end Entry

variable {name scope : String} {fragment : Json} {default : Option Json} {e : Enumeration}

theorem exists_names (h : ofFragment name scope fragment default = .ok e) {v : Variant}
    (hv : v ∈ e.variants) : ∃ entry ∈ Entry.list fragment, Entry.Names e.constantType entry v :=
  Entry.names_of_mem_variants (ofFragment_reads h).2.1 hv

theorem isOf_of_mem (h : ofFragment name scope fragment default = .ok e) {v : Variant}
    (hv : v ∈ e.variants) : v.value.IsOf e.constantType := by
  obtain ⟨entry, -, hnames⟩ := exists_names h hv
  exact hnames.isOf

theorem map_toJson_variants (h : ofFragment name scope fragment default = .ok e) :
    e.variants.map (·.value.toJson) = (Entry.list fragment).filterMap (·.literal) :=
  Entry.map_toJson_of_variants (ofFragment_reads h).2.1

/-- The entries of an enumeration that was read agree on its type. -/
theorem agreeOn_of_ofFragment (h : ofFragment name scope fragment default = .ok e) :
    Entry.AgreeOn e.constantType (Entry.list fragment) := by
  obtain ⟨hagree, -, hsome, -⟩ := ofFragment_reads h
  obtain ⟨hadmits, -, -⟩ := Entry.foldlM_agree_iff.mp hagree
  constructor
  · intro entry hentry
    exact (Entry.admits_iff.mp (hadmits entry hentry)).1
  · intro entry hentry
    exact (Entry.admits_iff.mp (hadmits entry hentry)).2
  · intro entry hentry literal hliteral
    have hmem : literal ∈ e.variants.map (·.value.toJson) := by
      rw [map_toJson_variants h]
      exact List.mem_filterMap.mpr ⟨entry, hentry, hliteral⟩
    obtain ⟨v, hv, hwritten⟩ := List.mem_map.mp hmem
    exact ⟨v.value, isOf_of_mem h hv, hwritten⟩
  · obtain ⟨v, hv⟩ := List.exists_mem_of_ne_nil _ hsome
    obtain ⟨entry, hentry, hnames⟩ := exists_names h hv
    exact ⟨entry, hentry, by simp [hnames.literal]⟩

/-- Entries that agree on a type are read as an enumeration. -/
theorem exists_of_agreeOn {type : ConstantType} (h : Entry.AgreeOn type (Entry.list fragment))
    (name scope : String) (default : Option Json) :
    ∃ e, ofFragment name scope fragment default = .ok e := by
  obtain ⟨found, hfound⟩ := Entry.exists_variants h.constant
  have hsome : found ≠ [] := by
    rintro rfl
    obtain ⟨entry, hentry, hliteral⟩ := h.nonempty
    obtain ⟨literal, hliteral⟩ := Option.isSome_iff_exists.mp hliteral
    have hmem : literal ∈ (Entry.list fragment).filterMap (·.literal) :=
      List.mem_filterMap.mpr ⟨entry, hentry, hliteral⟩
    rw [← Entry.map_toJson_of_variants hfound] at hmem
    cases hmem
  rw [ofFragment_eq h.foldlM_eq, hfound]
  exact ⟨_, if_neg (by simpa using hsome)⟩

/-- The identifier that is chosen among constants of a type is that of the default. -/
theorem exists_isDefault {type : ConstantType} {variants : List Variant} (hsome : variants ≠ [])
    (hisOf : ∀ v ∈ variants, v.value.IsOf type) (default : Option Json) :
    ∃ v, IsDefault default variants v ∧ defaultOf type variants default = some v.identifier := by
  unfold defaultOf
  dsimp only
  cases hchosen : (default.bind (Literal.ofJson? type)).bind
      fun value => variants.find? (·.value = value) with
  | some v =>
    refine ⟨v, ?_, rfl⟩
    obtain ⟨value, hvalue, hfind⟩ := Option.bind_eq_some_iff.mp hchosen
    obtain ⟨json, rfl, hjson⟩ := Option.bind_eq_some_iff.mp hvalue
    obtain ⟨-, rfl⟩ := Literal.ofJson?_eq_some_iff.mp hjson
    obtain ⟨heq, earlier, later, hsplit, hearlier⟩ := List.find?_eq_some_iff_append.mp hfind
    obtain rfl : v.value = value := by simpa using heq
    exact .declared earlier later hsplit rfl fun w hw => by simpa using hearlier w hw
  | none =>
    obtain ⟨v, rest, rfl⟩ := List.exists_cons_of_ne_nil hsome
    refine ⟨v, .first rest rfl fun w hw hdefault => ?_, rfl⟩
    rw [hdefault, Option.bind_some, Literal.ofJson?_eq_some_iff.mpr ⟨hisOf w hw, rfl⟩,
      Option.bind_some, List.find?_eq_none] at hchosen
    exact hchosen w hw (by simp)

theorem isDefault_of_ofFragment (h : ofFragment name scope fragment default = .ok e) :
    ∃ v, IsDefault default e.variants v ∧ e.defaultIdentifier = some v.identifier := by
  obtain ⟨hsome, hdefault⟩ := ofFragment_inv h
  rw [hdefault]
  exact exists_isDefault hsome (fun v hv => isOf_of_mem h hv) default

end Enumeration

namespace Drafting

open Enumeration

/-- A fragment lists an enumeration exactly when its entries agree on a type. Then nothing is told,
the enumeration is of that type, its constants are the literals of the entries, and the default is
among them; otherwise there is one warning. -/
theorem enumerationOf_agreeOn (label name scope : String) (fragment : Json)
    (default : Option Json) (draft : Draft) :
    ∃ found after, enumerationOf label name scope fragment default draft = some (found, after) ∧
      (found.isSome ↔ ∃ type, Entry.AgreeOn type (Entry.list fragment)) ∧
      (∀ e, found = some e → after = draft ∧
        (∀ type, Entry.AgreeOn type (Entry.list fragment) ↔ type = e.constantType) ∧
        e.variants.map (·.value.toJson) = (Entry.list fragment).filterMap (·.literal) ∧
        ∃ v, IsDefault default e.variants v ∧ e.defaultIdentifier = some v.identifier) ∧
      (found = none → ∃ fault,
        after = { draft with catalog := draft.catalog.warn (.enumeration label fault) } ∧
        after.catalog.warnings = draft.catalog.warnings ++ [.enumeration label fault]) := by
  unfold enumerationOf
  cases hread : ofFragment name scope fragment default with
  | ok e =>
    have hagree := agreeOn_of_ofFragment hread
    refine ⟨some e, draft, rfl, ?_, ?_, nofun⟩
    · exact iff_of_true rfl ⟨_, hagree⟩
    · rintro _ ⟨⟩
      exact ⟨rfl, fun type => ⟨hagree.unique, fun h => h ▸ hagree⟩, map_toJson_variants hread,
        isDefault_of_ofFragment hread⟩
  | error fault =>
    refine ⟨none, _, rfl, ?_, nofun, fun _ => ⟨fault, rfl, ?_⟩⟩
    · refine iff_of_false nofun fun ⟨type, hagree⟩ => ?_
      obtain ⟨e, hok⟩ := exists_of_agreeOn hagree name scope default
      cases hread.symm.trans hok
    · exact warningsOf_append _ _

/-- An open enumeration of strings: the alternative without a constant leaves none out. -/
theorem enumerationOf_agreeOn_open :
    let fragment : Json := .obj [("anyOf", .arr [.obj [("const", .str "A")],
      .obj [("const", .str "B")], .obj [("type", .str "string")]])]
    let start : Draft := .new (.new (.rootedAt []) [] []) .empty (.ofNamespace "N")
    Entry.AgreeOn .string (Entry.list fragment) ∧
      ∃ e, enumerationOf "c.e" "E" "N" fragment (some (.str "B")) start = some (some e, start) ∧
        e.constantType = .string ∧ e.variants.map (·.value.toJson) = [.str "A", .str "B"] ∧
        ∃ v ∈ e.variants, v.value = .string "B" ∧ e.defaultIdentifier = some v.identifier := by
  intro fragment start
  have hlist : Entry.list fragment = [⟨some (.str "A"), none, none⟩, ⟨some (.str "B"), none, none⟩,
      ⟨none, none, some "string"⟩] := rfl
  have hagree : Entry.AgreeOn .string (Entry.list fragment) := by
    rw [hlist]
    constructor
    · simp [ConstantType.name]
    · simpa using ⟨ConstantType.Describes.string "A", ConstantType.Describes.string "B"⟩
    · simp only [List.forall_mem_cons, Option.some.injEq, forall_eq']
      exact ⟨⟨_, .string "A", rfl⟩, ⟨_, .string "B", rfl⟩, nofun, nofun⟩
    · simp
  obtain ⟨found, after, hfound, hiff, hread, -⟩ :=
    enumerationOf_agreeOn "c.e" "E" "N" fragment (some (.str "B")) start
  obtain ⟨e, rfl⟩ := Option.isSome_iff_exists.mp (hiff.mpr ⟨_, hagree⟩)
  obtain ⟨rfl, htype, hvalues, v, hdefault, hidentifier⟩ := hread e rfl
  rw [hlist] at hvalues
  refine ⟨hagree, e, hfound, ((htype _).mp hagree).symm, hvalues, v, hdefault.mem, ?_, hidentifier⟩
  cases hdefault with
  | declared earlier later hsplit hvalue =>
    exact Literal.toJson_injective (Option.some.inj hvalue).symm
  | first rest hsplit hnone =>
    have hmem : Json.str "B" ∈ e.variants.map (·.value.toJson) := by simp [hvalues]
    obtain ⟨w, hw, hvalue⟩ := List.mem_map.mp hmem
    exact absurd (congrArg some hvalue.symm) (hnone w hw)

end Drafting

end SchemaClasses
