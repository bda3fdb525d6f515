import SchemaClasses.Proofs.Drafting.TypeNames
import SchemaClasses.Proofs.Enumeration.Identifiers

/-!
# Legal names

A name is legal when it can be an identifier in generated code: it has letters, digits and
underscores only, starts with no digit, and is not reserved. Names of classes keep the characters
that a legal name may have but get no mark before a digit, and nothing but members is kept from
reserved words. The names here say what is left to ask of a title, a location or a constant.
-/

namespace SchemaClasses.Naming

/-- ASCII letters, digits and underscores only. -/
def IsWord (name : String) : Prop := ∀ c ∈ name.toList, c.isAlphanum = true ∨ c = '_'

/-- A name that can be an identifier in generated code. -/
structure IsLegal (name : String) : Prop where
  word : IsWord name
  start : ∃ c, name.toList.head? = some c ∧ (c.isAlpha = true ∨ c = '_')
  free : name ∉ reservedWords

variable {name : String} {c : Char}

/-! ### Letters -/

theorem isLower_iff : c.isLower = true ↔ 97 ≤ c.toNat ∧ c.toNat ≤ 122 := by
  change (decide (c.val ≥ 'a'.val) && decide (c.val ≤ 'z'.val)) = true ↔ _
  simp [UInt32.le_iff_toNat_le]

theorem isUpper_iff : c.isUpper = true ↔ 65 ≤ c.toNat ∧ c.toNat ≤ 90 := by
  change decide (c.val ≥ 'A'.val ∧ c.val ≤ 'Z'.val) = true ↔ _
  simp [UInt32.le_iff_toNat_le]

theorem isAlpha_iff : c.isAlpha = true ↔ c.isUpper = true ∨ c.isLower = true :=
  Bool.or_eq_true_iff

theorem isDigit_of_isAlpha (h : c.isAlpha = true) : c.isDigit = false := by
  rw [isAlpha_iff, isUpper_iff, isLower_iff] at h
  rw [Bool.eq_false_iff, ne_eq, Char.isDigit_iff_toNat]
  have hlast : '9'.toNat = 57 := rfl
  omega

/-! ### What is left to ask -/

/-- Of a name without other characters it is left to ask that it needs no mark and is not
reserved. -/
theorem isLegal_iff (h : IsWord name) :
    IsLegal name ↔ needsMark name.toList = false ∧ name ∉ reservedWords := by
  constructor
  · intro hlegal
    obtain ⟨c, hhead, hstart⟩ := hlegal.start
    obtain ⟨rest, hname⟩ := List.head?_eq_some_iff.mp hhead
    refine ⟨?_, hlegal.free⟩
    rw [hname, needsMark]
    rcases hstart with halpha | rfl
    · exact isDigit_of_isAlpha halpha
    · decide
  · rintro ⟨hmark, hfree⟩
    refine ⟨h, ?_, hfree⟩
    cases hname : name.toList with
    | nil => simp [hname, needsMark] at hmark
    | cons c rest =>
      rw [hname, needsMark] at hmark
      have hc := h c (by simp [hname])
      refine ⟨c, rfl, ?_⟩
      simpa [Char.isAlphanum, hmark] using hc

/-! ### Reserved words -/

theorem lower_of_reserved : ∀ word ∈ reservedWords,
    word.toList.all (fun c => !c.isUpper) = true ∧ word.toList.head?.any Char.isLower = true := by
  decide +kernel

theorem not_reserved_of_isUpper (hmem : c ∈ name.toList) (h : c.isUpper = true) :
    name ∉ reservedWords := by
  intro hreserved
  have hlower := List.all_eq_true.mp (lower_of_reserved name hreserved).1 c hmem
  simp [h] at hlower

theorem not_reserved_of_head? (h : name.toList.head?.any Char.isLower = false) :
    name ∉ reservedWords := by
  intro hreserved
  have hlower := (lower_of_reserved name hreserved).2
  rw [h] at hlower
  cases hlower

/-! ### Identifiers of constants -/

theorem mem_wordChars {text : String} (h : c ∈ wordChars text) :
    c.isAlphanum = true ∨ c = '_' := by
  obtain ⟨own, -, rfl⟩ := List.mem_map.mp h
  split
  · exact .inl ‹_›
  · exact .inr rfl

theorem isWord_identifier (text : String) : IsWord (identifier text) := by
  intro c hc
  rw [toList_identifier] at hc
  split at hc
  · rcases List.mem_cons.mp hc with rfl | hc
    · exact .inr rfl
    · exact mem_wordChars hc
  · exact mem_wordChars hc

theorem needsMark_identifier (text : String) : needsMark (identifier text).toList = false := by
  rw [toList_identifier]
  split
  · rfl
  · simpa using ‹¬needsMark (wordChars text) = true›

/-- A text that needs a mark is not reserved, with or without it. -/
theorem identifier_reserved_iff (text : String) :
    identifier text ∈ reservedWords ↔ String.ofList (wordChars text) ∈ reservedWords := by
  cases hmark : needsMark (wordChars text) with
  | true =>
    have hidentifier : identifier text ∉ reservedWords := by
      apply not_reserved_of_head?
      rw [toList_identifier, hmark]
      rfl
    have htext : String.ofList (wordChars text) ∉ reservedWords := by
      apply not_reserved_of_head?
      rw [String.toList_ofList]
      cases hchars : wordChars text with
      | nil => rfl
      | cons c rest =>
        rw [hchars, needsMark] at hmark
        cases hlower : c.isLower with
        | false => simpa using hlower
        | true =>
          have hdigit := isDigit_of_isAlpha (isAlpha_iff.mpr (.inr hlower))
          cases hmark.symm.trans hdigit
    exact iff_of_false hidentifier htext
  | false =>
    have hsame : identifier text = String.ofList (wordChars text) := by
      rw [← String.toList_inj, toList_identifier, hmark, String.toList_ofList]
      rfl
    rw [hsame]

/-- The identifier of a constant can only be reserved. -/
theorem isLegal_identifier_iff (text : String) :
    IsLegal (identifier text) ↔ String.ofList (wordChars text) ∉ reservedWords := by
  rw [isLegal_iff (isWord_identifier text), identifier_reserved_iff]
  simp [needsMark_identifier]

/-! ### Names of classes -/

theorem isWord_plain (title : Option String) (location : String) :
    IsWord (plain title location) := fun _ hc => mem_plain hc

theorem exists_inlineTitle_eq (parent path : String) : ∃ middle,
    (inlineTitle parent path).toList = parent.toList ++ (middle ++ "Value".toList) := by
  unfold inlineTitle
  dsimp only
  split
  · exact ⟨[' '], by simp [String.toList_append]⟩
  · exact ⟨' ' :: (capitalized (baseProperty path)).toList ++ [' '],
      by simp [String.toList_append]⟩

/-- The title of a class that is declared at a property gives a legal name when the class around it
has one. -/
theorem isLegal_inlineTitle {parent : String} (h : IsLegal parent) (path location : String) :
    IsLegal (plain (some (inlineTitle parent path)) location) := by
  obtain ⟨middle, htitle⟩ := exists_inlineTitle_eq parent path
  obtain ⟨c, hhead, hstart⟩ := h.start
  obtain ⟨rest, hparent⟩ := List.head?_eq_some_iff.mp hhead
  have hkept : parent.toList.filter (fun c => isWordChar c || c = '_') = parent.toList := by
    rw [List.filter_eq_self]
    intro d hd
    simpa [isWordChar] using h.word d hd
  have hchars : (plain (some (inlineTitle parent path)) location).toList = parent.toList ++
      (middle.filter (fun c => isWordChar c || c = '_') ++ "Value".toList) := by
    rw [plain, ofTitle_empty, String.toList_ofList, htitle, List.filter_append,
      List.filter_append, hkept]
    rfl
  refine ⟨isWord_plain _ _, ⟨c, ?_, hstart⟩, ?_⟩
  · rw [hchars, hparent]
    rfl
  · have hcapital : 'V' ∈ (plain (some (inlineTitle parent path)) location).toList := by
      rw [hchars]
      simp
    exact not_reserved_of_isUpper hcapital (by decide)

end SchemaClasses.Naming
