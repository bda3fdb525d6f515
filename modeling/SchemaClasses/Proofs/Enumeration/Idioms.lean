import SchemaClasses.Proofs.Enumeration.Entries
import SchemaClasses.Proofs.Shape

/-!
# Three ways to list constants

An enumeration is read off its entries: they must agree on a type, each literal must be of that
type, and the constants are those of the entries with a literal, in order. A description has a say
only in the identifier of an integer. So `enum`, `anyOf` with an `enum` each and `anyOf` with a
`const` each give the same constants and the same default for the same values, or the same fault.
-/

namespace SchemaClasses

def Variant.constant (v : Variant) : String × Literal := (v.identifier, v.value)

namespace Enumeration

/-- What generated code takes from an enumeration: the type and the constants with the default one.
-/
def constants (e : Enumeration) : ConstantType × List (String × Literal) × Option String :=
  (e.constantType, e.variants.map (·.constant), e.defaultIdentifier)

namespace Entry

theorem variants_concat {type : ConstantType} {entry : Entry} (h : entry.literal = none)
    (entries : List Entry) : variants type (entries ++ [entry]) = variants type entries := by
  induction entries with
  | nil => simp [variants_cons, variants_nil, variant, h]; rfl
  | cons first entries ih => rw [List.cons_append, variants_cons, variants_cons, ih]

theorem foldlM_agree {type : ConstantType} {entries : List Entry}
    (h : ∀ entry ∈ entries, entry.declared = some type.name) (nonempty : entries ≠ []) :
    entries.foldlM agree none = .ok (some type) := by
  have hfor : ∀ entry ∈ entries, entry.type = .ok (some type) :=
    fun entry hentry => type_eq_some_iff.mpr (.inl (h entry hentry))
  refine foldlM_agree_iff.mpr ⟨fun entry hentry => .inr (hfor entry hentry), by simp, fun _ => ?_⟩
  obtain ⟨first, hfirst⟩ := List.exists_mem_of_ne_nil entries nonempty
  exact ⟨first, hfirst, hfor first hfirst⟩

/-- Two entries give the same constant of a type or the same fault. -/
def Alike (type : ConstantType) (entry other : Entry) : Prop :=
  (entry.variant type).map (·.map (·.constant)) = (other.variant type).map (·.map (·.constant))

theorem variants_alike {type : ConstantType} {entries others : List Entry}
    (h : List.Forall₂ (Alike type) entries others) :
    (variants type entries).map (·.map (·.constant)) =
      (variants type others).map (·.map (·.constant)) := by
  have hcons (entry : Entry) (entries : List Entry) :
      (variants type (entry :: entries)).map (·.map (·.constant)) = do
        let first ← (entry.variant type).map (·.map (·.constant))
        let rest ← (variants type entries).map (·.map (·.constant))
        return first.toList ++ rest := by
    rw [variants_cons]
    cases entry.variant type with
    | error fault => rfl
    | ok first =>
      cases variants type entries with
      | error fault => rfl
      | ok rest => cases first <;> rfl
  induction h with
  | nil => rfl
  | cons hfirst _ ih => rw [hcons, hcons, hfirst, ih]

theorem alike_item {type : ConstantType} {description : Option String}
    (h : type = .integer → description = none) (value : Json) (declared other : Option String) :
    Alike type ⟨some value, value.asString?, declared⟩ ⟨some value, description, other⟩ := by
  unfold Alike variant
  cases type with
  | integer =>
    obtain rfl := h rfl
    cases value <;> rfl
  | string => cases value <;> rfl

end Entry

/-- The identifier of the first constant with the default value, or else of the first constant. -/
def defaultAmong (type : ConstantType) (constants : List (String × Literal))
    (default : Option Json) : Option String :=
  let chosen := (default.bind (Literal.ofJson? type)).bind fun value =>
    constants.find? (·.2 = value)
  (chosen.or constants.head?).map (·.1)

theorem defaultOf_eq (type : ConstantType) (variants : List Variant) (default : Option Json) :
    defaultOf type variants default = defaultAmong type (variants.map (·.constant)) default := by
  have hfind (value : Literal) : ((variants.map (·.constant)).find? (·.2 = value)) =
      (variants.find? (·.value = value)).map (·.constant) := List.find?_map
  unfold defaultOf defaultAmong
  rw [List.head?_map]
  cases default.bind (Literal.ofJson? type) with
  | none => simp [Variant.constant, Function.comp_def]
  | some value =>
    dsimp only [Option.bind_some]
    rw [hfind, ← Option.map_or, Option.map_map]
    rfl

/-- The constants of a fragment whose entries agree on a type. -/
theorem ofFragment_constants {type : ConstantType} {fragment : Json}
    (h : (Entry.list fragment).foldlM Entry.agree none = .ok (some type)) (name scope : String)
    (default : Option Json) :
    (ofFragment name scope fragment default).map constants = do
      let found ← (Entry.variants type (Entry.list fragment)).map (·.map (·.constant))
      if found.isEmpty then throw .noConstant
      else return (type, found, defaultAmong type found default) := by
  rw [ofFragment_eq h]
  cases Entry.variants type (Entry.list fragment) with
  | error fault => rfl
  | ok found =>
    cases found with
    | nil => rfl
    | cons first rest =>
      refine congrArg Except.ok ?_
      rw [← defaultOf_eq]
      rfl

/-- A value that is listed, with the description of the alternative that lists it. -/
structure Listed where
  value : Json
  description : Option Json

namespace Listed

def alternative (fields : List (String × Json)) (description : Option Json) : Json :=
  .obj (fields ++ (description.map fun text => ("description", text)).toList)

def asItems (type : ConstantType) (listed : List Listed) : Json :=
  .obj [("type", .str type.name), ("enum", .arr (listed.map (·.value)))]

/-- The fragment that lists each value in the `enum` of an alternative. -/
def asEnums (type : ConstantType) (listed : List Listed) : Json :=
  .obj [
    ("type", .str type.name),
    ("anyOf", .arr (listed.map fun l => alternative [("enum", .arr [l.value])] l.description))]

/-- The fragment that lists each value as the `const` of an alternative, with an open alternative at
the end. -/
def asConsts (type : ConstantType) (listed : List Listed) (description : Option Json) : Json :=
  .obj [("anyOf", .arr (
    (listed.map fun l =>
      alternative [("const", l.value), ("type", .str type.name)] l.description) ++
    [alternative [("type", .str type.name)] description]))]

variable {type : ConstantType} {listed : List Listed}

theorem list_asItems (type : ConstantType) (listed : List Listed) :
    Entry.list (asItems type listed) =
      listed.map fun l => ⟨some l.value, l.value.asString?, some type.name⟩ := by
  change (listed.map (·.value)).map (Entry.ofItem (some type.name)) = _
  rw [List.map_map]
  rfl

def entry (type : ConstantType) (l : Listed) : Entry :=
  ⟨some l.value, l.description.bind Json.asString?, some type.name⟩

theorem list_asEnums (type : ConstantType) (listed : List Listed) :
    Entry.list (asEnums type listed) = listed.map (entry type) := by
  change (listed.map _).map (Entry.ofAlternative (some type.name)) = _
  rw [List.map_map]
  refine List.map_congr_left fun l _ => ?_
  obtain ⟨value, _ | description⟩ := l <;> rfl

theorem list_asConsts (type : ConstantType) (listed : List Listed) (description : Option Json) :
    Entry.list (asConsts type listed description) =
      listed.map (entry type) ++
        [⟨none, description.bind Json.asString?, some type.name⟩] := by
  change ((listed.map _) ++ _).map (Entry.ofAlternative none) = _
  rw [List.map_append, List.map_map]
  refine congrArg₂ (· ++ ·) (List.map_congr_left fun l _ => ?_) ?_
  · obtain ⟨value, _ | description⟩ := l <;> rfl
  · cases description <;> rfl

def fragments (type : ConstantType) (listed : List Listed) (description : Option Json) :
    List Json :=
  [asItems type listed, asEnums type listed, asConsts type listed description]

theorem isEnumeration_fragments {first : Listed} {rest : List Listed} {description : Option Json}
    {fragment : Json} (h : fragment ∈ fragments type (first :: rest) description) :
    isEnumeration fragment = true ∧ PropertyShape.of fragment = .enumeration := by
  simp only [fragments, List.mem_cons, List.not_mem_nil, or_false] at h
  have henum : isEnumeration fragment = true := by
    obtain rfl | rfl | rfl := h <;> obtain ⟨value, _ | text⟩ := first <;> rfl
  exact ⟨henum, PropertyShape.of_isEnumeration henum⟩

theorem foldlM_agree_fragments (nonempty : listed ≠ []) {description : Option Json}
    {fragment : Json} (h : fragment ∈ fragments type listed description) :
    (Entry.list fragment).foldlM Entry.agree none = .ok (some type) := by
  simp only [fragments, List.mem_cons, List.not_mem_nil, or_false] at h
  obtain rfl | rfl | rfl := h
  · rw [list_asItems]
    exact Entry.foldlM_agree (by simp) (by simpa using nonempty)
  · rw [list_asEnums]
    exact Entry.foldlM_agree (by simp [entry]) (by simpa using nonempty)
  · rw [list_asConsts]
    exact Entry.foldlM_agree (by simp [entry, or_imp, forall_and]) (by simp)

/-- The entries of all three fragments give the same constants. -/
theorem variants_fragments (plain : type = .integer → ∀ l ∈ listed, l.description = none)
    {description : Option Json} {fragment : Json}
    (h : fragment ∈ fragments type listed description) :
    (Entry.variants type (Entry.list fragment)).map (·.map (·.constant)) =
      (Entry.variants type (listed.map (entry type))).map (·.map (·.constant)) := by
  simp only [fragments, List.mem_cons, List.not_mem_nil, or_false] at h
  obtain rfl | rfl | rfl := h
  · rw [list_asItems]
    refine Entry.variants_alike (List.forall₂_map_left_iff.mpr (List.forall₂_map_right_iff.mpr ?_))
    refine List.forall₂_same.mpr fun l hl => Entry.alike_item (fun hinteger => ?_) _ _ _
    rw [plain hinteger l hl, Option.bind_none]
  · rw [list_asEnums]
  · rw [list_asConsts, Entry.variants_concat rfl]

end Listed

/-- The same values listed in each of the three ways make an enumeration, with the same type, the
same constants and the same default, or there is the same fault in all three. Alternatives of a
string enumeration may have any descriptions, and so may the open one. -/
theorem ofFragment_fragments (type : ConstantType) (first : Listed) (rest : List Listed)
    (description : Option Json)
    (plain : type = .integer → ∀ l ∈ first :: rest, l.description = none) (name scope : String)
    (default : Option Json) :
    (∀ fragment ∈ Listed.fragments type (first :: rest) description,
      isEnumeration fragment = true ∧ PropertyShape.of fragment = .enumeration) ∧
    ∀ fragment ∈ Listed.fragments type (first :: rest) description,
      ∀ other ∈ Listed.fragments type (first :: rest) description,
      (ofFragment name scope fragment default).map constants =
        (ofFragment name scope other default).map constants := by
  refine ⟨fun fragment h => Listed.isEnumeration_fragments h, fun fragment h other hother => ?_⟩
  rw [ofFragment_constants (Listed.foldlM_agree_fragments (List.cons_ne_nil _ _) h),
    ofFragment_constants (Listed.foldlM_agree_fragments (List.cons_ne_nil _ _) hother),
    Listed.variants_fragments plain h, Listed.variants_fragments plain hother]

/-- The modes of a material with a description, and a default that is not the first of them. -/
theorem ofFragment_fragments_modes :
    let listed : List Listed := [⟨.str "OPAQUE", none⟩, ⟨.str "MASK", some (.str "cut out")⟩]
    ∀ fragment ∈ Listed.fragments .string listed (some (.str "others")),
      (ofFragment "AlphaMode" "N::Material" fragment (some (.str "MASK"))).map constants =
        .ok (.string, [("OPAQUE", .string "OPAQUE"), ("MASK", .string "MASK")], some "MASK") := by
  intro listed fragment h
  have hitems : (ofFragment "AlphaMode" "N::Material" (Listed.asItems .string listed)
      (some (.str "MASK"))).map constants =
        .ok (.string, [("OPAQUE", .string "OPAQUE"), ("MASK", .string "MASK")], some "MASK") := by
    rfl
  rw [← hitems]
  exact (ofFragment_fragments .string _ _ _ (fun hinteger => nomatch hinteger) _ _ _).2 fragment h
    _ List.mem_cons_self

end Enumeration

end SchemaClasses
