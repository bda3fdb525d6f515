import SchemaClasses.Draft.Alias

/-!
# Shapes of the same schema in two positions

A fragment that is an inline object at a property need not be an object as a whole schema: there the
keywords that come first are others. A schema that is to become a class stands for itself.
-/

namespace SchemaClasses

namespace PropertyShape

def items? : PropertyShape → Option Json
  | .array items => items
  | _ => none

theorem eq_array_of_items? {shape : PropertyShape} {items : Json} (h : shape.items? = some items) :
    shape = .array (some items) := by
  cases shape with
  | array found => exact congrArg array h
  | _ => cases h

theorem ofLink_ne_inlineObject (fragment : Json) : ofLink fragment ≠ .inlineObject := by
  unfold ofLink
  split
  · simp
  · split <;> simp

theorem ofObject?_inv {fragment : Json} (h : ofObject? fragment = some .inlineObject) :
    ((fragment.get? "properties").map Json.isObject).getD false = true := by
  unfold ofObject? at h
  split at h
  · assumption
  · split at h
    · split at h <;> simp at h
    · cases h

theorem ofType?_inv {fragment : Json} (h : ofType? fragment = some .inlineObject) :
    declaredType? fragment = some "object" ∧
      ((fragment.get? "properties").map Json.isObject).getD false = true := by
  unfold ofType? at h
  obtain ⟨type, htype, h⟩ := Option.bind_eq_some_iff.mp h
  split at h
  · cases h
  · split at h
    · rename_i hobject
      exact ⟨hobject ▸ htype, ofObject?_inv h⟩
    · obtain ⟨kind, -, h⟩ := Option.bind_eq_some_iff.mp h
      cases h

theorem inlineObject_inv {body : Json} (h : PropertyShape.of body = .inlineObject) :
    body.isObject = true ∧ declaredType? body = some "object" ∧
      ((body.get? "properties").map Json.isObject).getD false = true := by
  rw [PropertyShape.of.eq_def] at h
  split at h
  · cases h
  · refine ⟨rfl, ?_⟩
    split at h
    · cases h
    · cases htype : ofType? _ with
      | none =>
        rw [htype, Option.getD_none] at h
        exact absurd h (ofLink_ne_inlineObject _)
      | some shape =>
        rw [htype, Option.getD_some] at h
        exact ofType?_inv (h ▸ htype)
  · cases h

section

variable {fragment : Json}

theorem of_isEnumeration (h : isEnumeration fragment = true) : of fragment = .enumeration := by
  cases fragment with
  | obj fields =>
    cases fields with
    | nil => cases h
    | cons => exact if_pos h
  | _ => cases h

theorem of_cases (fragment : Json) :
    of fragment = .empty ∨ of fragment = .enumeration ∨ of fragment = .unsupported ∨
      ofType? fragment = some (of fragment) ∨ ofLink fragment = of fragment := by
  unfold of
  split
  · exact .inl rfl
  · split
    · exact .inr (.inl rfl)
    · cases htype : ofType? _ with
      | none => simp
      | some shape => simp
  · exact .inr (.inr (.inl rfl))

theorem ofType?_cases {shape : PropertyShape} (h : ofType? fragment = some shape) :
    shape = .array (fragment.get? "items") ∨ (∃ type, shape = .scalar type) ∨
      shape = .inlineObject ∨
      ∃ values, fragment.get? "additionalProperties" = some values ∧
        shape = .dictionary values := by
  unfold ofType? at h
  obtain ⟨type, -, h⟩ := Option.bind_eq_some_iff.mp h
  split at h
  · exact .inl (Option.some.inj h).symm
  · split at h
    · unfold ofObject? at h
      split at h
      · exact .inr (.inr (.inl (Option.some.inj h).symm))
      · split at h
        · rename_i values hvalues
          split at h
          · exact .inr (.inr (.inr ⟨values, hvalues, (Option.some.inj h).symm⟩))
          · cases h
        · cases h
    · obtain ⟨kind, -, h⟩ := Option.bind_eq_some_iff.mp h
      exact .inr (.inl ⟨kind, (Option.some.inj h).symm⟩)

theorem ofLink_cases (fragment : Json) :
    (∃ target, fragment.string? "$ref" = some target ∧ ofLink fragment = .reference target) ∨
      (∃ inner, onlyBase? fragment = some inner ∧ ofLink fragment = .composite inner) ∨
      ofLink fragment = .unsupported := by
  unfold ofLink
  cases href : fragment.string? "$ref" with
  | some target => exact .inl ⟨target, rfl, rfl⟩
  | none =>
    cases hbase : onlyBase? fragment with
    | some inner => exact .inr (.inl ⟨inner, rfl, rfl⟩)
    | none => exact .inr (.inr rfl)

theorem of_inv (fragment : Json) :
    match of fragment with
    | .array items => items = fragment.get? "items"
    | .dictionary values => fragment.get? "additionalProperties" = some values
    | .reference target => fragment.string? "$ref" = some target
    | .composite inner => onlyBase? fragment = some inner
    | _ => True := by
  rcases of_cases fragment with h | h | h | h | h
  · simp [h]
  · simp [h]
  · simp [h]
  · rcases ofType?_cases h with heq | ⟨type, heq⟩ | heq | ⟨values, hvalues, heq⟩
    · simp [heq]
    · simp [heq]
    · simp [heq]
    · simpa [heq] using hvalues
  · rcases ofLink_cases fragment with ⟨target, href, heq⟩ | ⟨inner, hbase, heq⟩ | heq
    · simpa [← h, heq] using href
    · simpa [← h, heq] using hbase
    · simp [← h, heq]

theorem array_inv {items : Option Json} (h : of fragment = .array items) :
    fragment.get? "items" = items := by
  have hinv := of_inv fragment
  rw [h] at hinv
  exact hinv.symm

theorem dictionary_inv {values : Json} (h : of fragment = .dictionary values) :
    fragment.get? "additionalProperties" = some values := by
  have hinv := of_inv fragment
  rwa [h] at hinv

theorem reference_inv {target : String} (h : of fragment = .reference target) :
    fragment.string? "$ref" = some target := by
  have hinv := of_inv fragment
  rwa [h] at hinv

theorem composite_inv {inner : Json} (h : of fragment = .composite inner) :
    onlyBase? fragment = some inner := by
  have hinv := of_inv fragment
  rwa [h] at hinv

end

end PropertyShape

namespace SchemaShape

variable {body : Json}

theorem of_isClassLike (h : isClassLike body = true) : SchemaShape.of body = .object := by
  unfold isClassLike at h
  split at h
  · assumption
  · cases h

theorem alias?_inlineObject (h : PropertyShape.of body = .inlineObject)
    (hlink : body.string? "$ref" = none) : alias? body = none := by
  obtain ⟨-, -, hproperties⟩ := PropertyShape.inlineObject_inv h
  cases hget : body.get? "properties" with
  | none => simp [hget] at hproperties
  | some properties => simp [alias?, hget, hlink]

theorem of_inlineObject (h : PropertyShape.of body = .inlineObject)
    (hlink : body.string? "$ref" = none) :
    SchemaShape.of body = .object ↔ body.array? "anyOf" = none ∧ body.array? "enum" = none := by
  obtain ⟨hobject, htype, -⟩ := PropertyShape.inlineObject_inv h
  have hscalar : ScalarType.ofName? "object" = none := rfl
  rw [SchemaShape.of, if_pos hobject, alias?_inlineObject h hlink, Option.getD_none, ofOwn]
  cases hanyOf : body.array? "anyOf" with
  | some alternatives => simp
  | none =>
    cases henum : body.array? "enum" with
    | some entries => simp
    | none => simp [htype, hscalar]

theorem ofOwn_ne_wrapper (body inner : Json) : ofOwn body ≠ .wrapper inner := by
  rw [ofOwn]
  (repeat' split) <;> simp

theorem ofOwn_ne_reference (body : Json) (target : String) : ofOwn body ≠ .reference target := by
  rw [ofOwn]
  (repeat' split) <;> simp

section

variable {schema : Json}

theorem of_cases (schema : Json) :
    of schema = .unsupported ∨ alias? schema = some (of schema) ∨ ofOwn schema = of schema := by
  unfold of
  split
  · cases alias? schema with
    | none => exact .inr (.inr rfl)
    | some shape => exact .inr (.inl rfl)
  · exact .inl rfl

theorem alias?_cases {shape : SchemaShape} (h : alias? schema = some shape) :
    (∃ inner, onlyBase? schema = some inner ∧ shape = .wrapper inner) ∨
      ∃ target, schema.string? "$ref" = some target ∧ shape = .reference target := by
  unfold alias? at h
  dsimp only at h
  split at h
  · rename_i inner hwrapped
    split at hwrapped
    · cases hwrapped
    · exact .inl ⟨inner, hwrapped, (Option.some.inj h).symm⟩
  · obtain ⟨target, href, rfl⟩ := Option.map_eq_some_iff.mp h
    exact .inr ⟨target, href, rfl⟩

theorem wrapper_inv {inner : Json} (h : of schema = .wrapper inner) :
    onlyBase? schema = some inner := by
  rcases of_cases schema with hof | hof | hof
  · rw [h] at hof
    cases hof
  · rcases alias?_cases (hof.trans (congrArg some h)) with ⟨_, hbase, heq⟩ | ⟨_, _, heq⟩
    · rwa [(wrapper.inj heq).symm] at hbase
    · cases heq
  · exact absurd (hof.trans h) (ofOwn_ne_wrapper schema inner)

theorem reference_inv {target : String} (h : of schema = .reference target) :
    schema.string? "$ref" = some target := by
  rcases of_cases schema with hof | hof | hof
  · rw [h] at hof
    cases hof
  · rcases alias?_cases (hof.trans (congrArg some h)) with ⟨_, _, heq⟩ | ⟨_, href, heq⟩
    · cases heq
    · rwa [(reference.inj heq).symm] at href
  · exact absurd (hof.trans h) (ofOwn_ne_reference schema target)

end

end SchemaShape

theorem Link.ofEntry_cases (entry : Json) :
    (∃ target, entry.string? "$ref" = some target ∧ Link.ofEntry entry = .reference target) ∨
      Link.ofEntry entry = .entry entry := by
  unfold Link.ofEntry
  cases href : entry.string? "$ref" with
  | some target => exact .inl ⟨target, rfl, rfl⟩
  | none => exact .inr rfl

theorem Link.reference_inv {entry : Json} {target : String}
    (h : Link.ofEntry entry = .reference target) : entry.string? "$ref" = some target := by
  obtain ⟨found, href, heq⟩ | heq := Link.ofEntry_cases entry
  · obtain rfl := Link.reference.inj (heq.symm.trans h)
    exact href
  · cases heq.symm.trans h

theorem Link.entry_inv {entry body : Json} (h : Link.ofEntry entry = .entry body) :
    body = entry := by
  obtain ⟨found, -, heq⟩ | heq := Link.ofEntry_cases entry
  · cases heq.symm.trans h
  · exact (Link.entry.inj (heq.symm.trans h)).symm

namespace Document

variable {document : Document}

/-- A schema that does not begin with a link stands for itself. -/
theorem link?_of_alias? (h : SchemaShape.alias? document.body = none) :
    document.link? = none := by
  unfold link? SchemaShape.of
  rw [h, Option.getD_none]
  split
  · rename_i inner hshape
    split at hshape
    · exact absurd hshape (SchemaShape.ofOwn_ne_wrapper _ inner)
    · cases hshape
  · rename_i target hshape
    split at hshape
    · exact absurd hshape (SchemaShape.ofOwn_ne_reference _ target)
    · cases hshape
  · rfl

theorem link?_cases {link : Link} (h : document.link? = some link) :
    (∃ inner, onlyBase? document.body = some inner ∧ link = .ofEntry inner) ∨
      ∃ target, document.body.string? "$ref" = some target ∧ link = .reference target := by
  unfold link? at h
  split at h
  · rename_i inner hshape
    exact .inl ⟨inner, SchemaShape.wrapper_inv hshape, (Option.some.inj h).symm⟩
  · rename_i target hshape
    exact .inr ⟨target, SchemaShape.reference_inv hshape, (Option.some.inj h).symm⟩
  · cases h

theorem link?_entry_inv {body : Json} (h : document.link? = some (.entry body)) :
    onlyBase? document.body = some body := by
  obtain ⟨inner, hbase, heq⟩ | ⟨target, -, heq⟩ := link?_cases h
  · rwa [Link.entry_inv heq.symm]
  · cases heq

theorem link?_of_isClassLike (h : isClassLike document.body = true) : document.link? = none := by
  rw [link?, SchemaShape.of_isClassLike h]

end Document

end SchemaClasses
