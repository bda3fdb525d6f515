import SchemaClasses.Draft.PropertyType

/-!
# Parts of JSON values

What occurs in a value is the value and whatever occurs in its items and fields. A value stems from
another when it occurs there, or does so but for its title. Looking further into a value that stems
from another leads to what occurs there, unless one looks at the title that was replaced.
-/

namespace SchemaClasses

namespace Ordered

variable {κ β : Type} [DecidableEq κ]

theorem put_put (entries : List (κ × β)) (key : κ) (first second : β) :
    put (put entries key first) key second = put entries key second := by
  induction entries with
  | nil => simp [put]
  | cons entry rest ih =>
    obtain ⟨k, v⟩ := entry
    by_cases hk : k = key <;> simp [put, hk, ih]

end Ordered

namespace Json

/-- A value is a part of another, at any depth. -/
inductive Occurs (part : Json) : Json → Prop
  | self : Occurs part part
  | item {items item} : item ∈ items → Occurs part item → Occurs part (.arr items)
  | field {fields key value} : (key, value) ∈ fields → Occurs part value →
      Occurs part (.obj fields)

variable {part value whole : Json} {key : String}

theorem Occurs.trans (h : part.Occurs value) (k : value.Occurs whole) : part.Occurs whole := by
  induction k with
  | self => exact h
  | item hitem _ ih => exact .item hitem ih
  | field hfield _ ih => exact .field hfield ih

theorem Occurs.sizeOf_le (h : part.Occurs whole) : sizeOf part ≤ sizeOf whole := by
  induction h with
  | self => exact Nat.le_refl _
  | item hitem _ ih =>
    have hlt := List.sizeOf_lt_of_mem hitem
    simp only [arr.sizeOf_spec]
    omega
  | field hfield _ ih =>
    have hlt := List.sizeOf_lt_of_mem hfield
    simp only [obj.sizeOf_spec, Prod.mk.sizeOf_spec] at hlt ⊢
    omega

theorem occurs_of_get? (h : value.get? key = some part) : part.Occurs value := by
  obtain ⟨fields, hfields, hget⟩ := Option.bind_eq_some_iff.mp h
  cases value with
  | obj own =>
    obtain rfl := Option.some.inj hfields
    exact .field (Ordered.mem_of_get? hget) .self
  | null | bool | num | str | arr => cases hfields

theorem sizeOf_lt_of_get? (h : value.get? key = some part) : sizeOf part < sizeOf value := by
  obtain ⟨fields, hfields, hget⟩ := Option.bind_eq_some_iff.mp h
  cases value with
  | obj own =>
    obtain rfl := Option.some.inj hfields
    have hlt := List.sizeOf_lt_of_mem (Ordered.mem_of_get? hget)
    simp only [obj.sizeOf_spec, Prod.mk.sizeOf_spec] at hlt ⊢
    omega
  | null | bool | num | str | arr => cases hfields

theorem occurs_of_only? (h : value.only? = some part) : part.Occurs value := by
  unfold only? at h
  split at h
  · obtain rfl := Option.some.inj h
    exact .item List.mem_cons_self .self
  · cases h

theorem occurs_of_child? {token : List Char} (h : value.child? token = some part) :
    part.Occurs value := by
  cases value with
  | obj fields => exact .field (Ordered.mem_of_get? h) .self
  | arr items =>
    obtain ⟨index, -, hitem⟩ := Option.bind_eq_some_iff.mp h
    exact .item (List.mem_of_getElem? hitem) .self
  | null | bool | num | str => cases h

theorem occurs_of_asObject? {fields : List (String × Json)} {name : String}
    (h : value.asObject? = some fields) (hfield : (name, part) ∈ fields) : part.Occurs value := by
  cases value with
  | obj own =>
    obtain rfl := Option.some.inj h
    exact .field hfield .self
  | null | bool | num | str | arr => cases h

theorem occurs_of_asArray? {items : List Json} (h : value.asArray? = some items)
    (hitem : part ∈ items) : part.Occurs value := by
  cases value with
  | arr own =>
    obtain rfl := Option.some.inj h
    exact .item hitem .self
  | null | bool | num | str | obj => cases h

mutual

/-- The texts in a value. -/
def texts : Json → List String
  | .null => []
  | .bool _ => []
  | .num _ => []
  | .str value => [value]
  | .arr items => textsOfItems items
  | .obj fields => textsOfFields fields

def textsOfItems : List Json → List String
  | [] => []
  | item :: rest => texts item ++ textsOfItems rest

def textsOfFields : List (String × Json) → List String
  | [] => []
  | (_, value) :: rest => texts value ++ textsOfFields rest

end

theorem texts_subset_items {items : List Json} {item : Json} (h : item ∈ items) :
    item.texts ⊆ textsOfItems items := by
  induction items with
  | nil => cases h
  | cons first rest ih =>
    intro text htext
    rw [textsOfItems, List.mem_append]
    rcases List.mem_cons.mp h with rfl | h
    · exact .inl htext
    · exact .inr (ih h htext)

theorem texts_subset_fields {fields : List (String × Json)} (h : (key, value) ∈ fields) :
    value.texts ⊆ textsOfFields fields := by
  induction fields with
  | nil => cases h
  | cons first rest ih =>
    obtain ⟨k, v⟩ := first
    intro text htext
    rw [textsOfFields, List.mem_append]
    rcases List.mem_cons.mp h with heq | h
    · obtain ⟨rfl, rfl⟩ := Prod.mk.inj heq
      exact .inl htext
    · exact .inr (ih h htext)

theorem Occurs.texts_subset (h : part.Occurs whole) : part.texts ⊆ whole.texts := by
  induction h with
  | self => exact List.Subset.refl _
  | item hitem _ ih =>
    rw [texts]
    exact List.Subset.trans ih (texts_subset_items hitem)
  | field hfield _ ih =>
    rw [texts]
    exact List.Subset.trans ih (texts_subset_fields hfield)

theorem mem_texts_of_string? {text : String} (h : value.string? key = some text) :
    text ∈ value.texts := by
  obtain ⟨part, hget, hpart⟩ := Option.bind_eq_some_iff.mp h
  have hstr : part = .str text := by
    cases part with
    | str found => rw [Option.some.inj hpart]
    | null | bool | num | arr | obj => cases hpart
  exact (occurs_of_get? hget).texts_subset (by rw [hstr]; exact List.mem_singleton_self text)

theorem get?_titled (value : Json) (title : String) (hkey : key ≠ "title") :
    (value.titled title).get? key = value.get? key := by
  cases value with
  | obj fields =>
    have hput : Ordered.get? (Ordered.put fields "title" (.str title)) key =
        Ordered.get? fields key := by
      rw [Ordered.get?_put, if_neg (Ne.symm hkey)]
    simp [titled, get?, asObject?, hput]
  | null | bool | num | str | arr => rfl

theorem string?_titled (value : Json) (title : String) (hkey : key ≠ "title") :
    (value.titled title).string? key = value.string? key := by
  rw [string?, get?_titled value title hkey, string?]

theorem titled_titled (value : Json) (first second : String) :
    (value.titled first).titled second = value.titled second := by
  cases value with
  | obj fields => simp [titled, Ordered.put_put]
  | null | bool | num | str | arr => rfl

/-- What a token leads to in a value under another title is that title, or what it leads to in the
value. -/
theorem child?_titled {token : List Char} {title : String}
    (h : (value.titled title).child? token = some part) :
    part = .str title ∨ value.child? token = some part := by
  cases value with
  | obj fields =>
    have hget : Ordered.get? (Ordered.put fields "title" (.str title)) (String.ofList token) =
        some part := h
    rw [Ordered.get?_put] at hget
    split at hget
    · exact .inl (Option.some.inj hget).symm
    · exact .inr hget
  | null | bool | num | str | arr => exact .inr h

/-- A value is a part of another, but for its title. When `bare` holds, it may also be nothing but
the title that was given to a part. -/
inductive Stems (bare : Prop) (whole : Json) : Json → Prop
  | part {value : Json} : value.Occurs whole → Stems bare whole value
  | titled {value : Json} (title : String) : value.Occurs whole →
      Stems bare whole (value.titled title)
  | title (title : String) : bare → Stems bare whole (.str title)

namespace Stems

variable {bare : Prop}

theorem retitled (h : Stems bare whole value) (title : String) :
    Stems bare whole (value.titled title) := by
  cases h with
  | part hpart => exact .titled title hpart
  | titled first hpart =>
    rw [titled_titled]
    exact .titled title hpart
  | title text hbare => exact .title text hbare

theorem get? (h : Stems bare whole value) (hget : value.get? key = some part)
    (hkey : key ≠ "title") : part.Occurs whole := by
  cases h with
  | part hpart => exact (occurs_of_get? hget).trans hpart
  | titled title hpart =>
    rw [get?_titled _ title hkey] at hget
    exact (occurs_of_get? hget).trans hpart
  | title => cases hget

theorem child? (h : Stems bare whole value) (hbare : bare) {token : List Char}
    (hchild : value.child? token = some part) : Stems bare whole part := by
  cases h with
  | part hpart => exact .part ((occurs_of_child? hchild).trans hpart)
  | titled title hpart =>
    rcases child?_titled hchild with rfl | hchild
    · exact .title title hbare
    · exact .part ((occurs_of_child? hchild).trans hpart)
  | title => cases hchild

theorem string? {reference : String} (h : Stems bare whole value)
    (hstring : value.string? key = some reference) (hkey : key ≠ "title") :
    ∃ part, part.Occurs whole ∧ part.string? key = some reference ∧
      (value = part ∨ ∃ title, value = part.titled title) := by
  cases h with
  | part hpart => exact ⟨value, hpart, hstring, .inl rfl⟩
  | @titled inner title hpart =>
    rw [string?_titled _ title hkey] at hstring
    exact ⟨inner, hpart, hstring, .inr ⟨title, rfl⟩⟩
  | title => cases hstring

end Stems

theorem pointer?_inv {P : Json → Prop} {pointer : String}
    (hchild : ∀ {value part : Json} {token}, P value → value.child? token = some part → P part)
    (hvalue : P value) (h : value.pointer? pointer = some part) : P part := by
  obtain ⟨tokens, -, hfold⟩ := Option.bind_eq_some_iff.mp h
  clear h
  induction tokens generalizing value with
  | nil =>
    obtain rfl := Option.some.inj hfold
    exact hvalue
  | cons token tokens ih =>
    rw [List.foldlM_cons] at hfold
    obtain ⟨next, hnext, hfold⟩ := Option.bind_eq_some_iff.mp hfold
    exact ih (hchild hvalue hnext) hfold

theorem occurs_of_pointer? {pointer : String} (h : value.pointer? pointer = some part) :
    part.Occurs value :=
  pointer?_inv (P := (·.Occurs value))
    (fun hvalue hchild => (occurs_of_child? hchild).trans hvalue) .self h

end Json

theorem Document.properties_inv {document : Document} {name : String} {fragment : Json}
    (h : (name, fragment) ∈ document.properties) :
    ∃ object, document.body.get? "properties" = some object ∧ fragment.Occurs object := by
  unfold properties at h
  cases hfields : (document.body.get? "properties").bind Json.asObject? with
  | none => simp [hfields] at h
  | some fields =>
    rw [hfields, Option.getD_some] at h
    obtain ⟨object, hget, hobject⟩ := Option.bind_eq_some_iff.mp hfields
    exact ⟨object, hget, Json.occurs_of_asObject? hobject h⟩

theorem Json.array?_inv {value part : Json} {key : String} {items : List Json}
    (h : value.array? key = some items) (hitem : part ∈ items) :
    ∃ array, value.get? key = some array ∧ part.Occurs array := by
  obtain ⟨array, hget, harray⟩ := Option.bind_eq_some_iff.mp h
  exact ⟨array, hget, occurs_of_asArray? harray hitem⟩

theorem onlyBase?_inv {schema inner : Json} (h : onlyBase? schema = some inner) :
    ∃ entries, schema.get? "allOf" = some entries ∧ inner.Occurs entries := by
  obtain ⟨entries, hget, honly⟩ := Option.bind_eq_some_iff.mp h
  exact ⟨entries, hget, Json.occurs_of_only? honly⟩

theorem occurs_of_onlyBase? {schema inner : Json} (h : onlyBase? schema = some inner) :
    inner.Occurs schema := by
  obtain ⟨entries, hget, hinner⟩ := onlyBase?_inv h
  exact hinner.trans (Json.occurs_of_get? hget)

theorem sizeOf_onlyBase?_lt {schema inner : Json} (h : onlyBase? schema = some inner) :
    sizeOf inner < sizeOf schema := by
  obtain ⟨entries, hget, hinner⟩ := onlyBase?_inv h
  exact Nat.lt_of_le_of_lt hinner.sizeOf_le (Json.sizeOf_lt_of_get? hget)

end SchemaClasses
