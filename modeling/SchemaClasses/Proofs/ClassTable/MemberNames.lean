import SchemaClasses.Proofs.ClassTable.Chains
import SchemaClasses.Proofs.Naming

/-!
# Names of members

A member is called like its property, but a reserved word gets an ending. Nothing looks whether
another property has the longer name, in the same class or above it. So two members on a line of
classes are called the same when one property is a reserved word and the other is that word with its
ending, and in no other case.
-/

namespace SchemaClasses

namespace Naming

/-- A property that is called like a reserved word has a member with the other name. -/
def Renames (word other : String) : Prop := word ∈ reservedWords ∧ other = word ++ "Property"

variable {first second : String}

theorem Renames.not_mem (h : Renames first second) : second ∉ reservedWords := by
  have hcapital : 'P' ∈ second.toList := by simp [h.2, String.toList_append]
  exact not_reserved_of_isUpper hcapital (by decide)

theorem Renames.memberName_eq (h : Renames first second) :
    memberName first = memberName second := by
  rw [memberName, memberName, if_pos h.1, if_neg h.not_mem, h.2]

/-- Two properties have members of one name when they are the same, or one is renamed to the
other. -/
theorem memberName_eq_iff : memberName first = memberName second ↔
    first = second ∨ Renames first second ∨ Renames second first := by
  constructor
  · intro h
    unfold memberName at h
    split at h
    · split at h
      · exact .inl ((String.append_left_inj _).mp h)
      · exact .inr (.inl ⟨‹_›, h.symm⟩)
    · split at h
      · exact .inr (.inr ⟨‹_›, h⟩)
      · exact .inl h
  · rintro (rfl | h | h)
    · rfl
    · exact h.memberName_eq
    · exact h.memberName_eq.symm

end Naming

namespace ClassTable

/-- An object has a member for a property of its own. -/
def HasMember (table : ClassTable) (id : ClassId) (p : Property) : Prop :=
  ∃ c object, table.get? id = some c ∧ c.object? = some object ∧ p ∈ object.properties

/-- A class or one above it has a member for a property of its own. -/
def HasOnLine (table : ClassTable) (id : ClassId) (p : Property) : Prop :=
  ∃ x, table.AtOrAbove id x ∧ table.HasMember x p

end ClassTable

namespace Drafting

variable {owner : Owner} {draft after : Draft} {table : ClassTable} {p : Property}

theorem Members.memberName {declared : List (String × Json)} {members : List Property}
    (h : Members owner declared draft members after) :
    ∀ p ∈ members, p.memberName = Naming.memberName p.name := by
  induction h with
  | nil => simp
  | implied _ _ ih | stub _ _ _ ih => exact ih
  | member _ _ _ ih => simpa using ih

theorem Drafted.memberName {document : Document} {drafted : DraftClass} {base : Option ClassId}
    {declared : List String} {members : List Property} (h : Drafted document draft drafted)
    (hobject : drafted.body = .object base declared members) :
    ∀ p ∈ members, p.memberName = Naming.memberName p.name := by
  obtain ⟨start, last, ⟨hbody⟩, -⟩ := h
  obtain ⟨-, -, between, -, hmembers⟩ := hbody.object_inv hobject
  exact hmembers.memberName

theorem Called.memberName {catalog : Catalog} {settings : Settings} {naming : Naming}
    {ids : List ClassId} {depth : Nat} (h : Called (.new catalog settings naming) ids draft)
    (hfinish : finish depth draft = some (table, after)) {id : ClassId}
    (hp : table.HasMember id p) : p.memberName = Naming.memberName p.name := by
  obtain ⟨orderly, hpending, -, rfl, -⟩ := h.finished hfinish
  obtain ⟨c, object, hc, hobject, hp⟩ := hp
  obtain ⟨place, drafted, -, -, hdrafted, rfl⟩ := orderly.class_inv hpending hc
  obtain ⟨base, declared, members, hbody, rfl⟩ := Linking.object?_classOf.mp hobject
  exact hdrafted.memberName hbody p (List.mem_of_mem_filter hp)

/-- Two different properties on a line of classes have members of one name when one of them is
renamed to the other, and only then. So no members of a line clash exactly when no property of it is
renamed to another one. -/
theorem memberNames_apart {catalog : Catalog} {settings : Settings} {naming : Naming}
    {ids : List ClassId} {depth : Nat} (h : Called (.new catalog settings naming) ids draft)
    (hfinish : finish depth draft = some (table, after)) (id : ClassId) :
    (∀ p q, table.HasOnLine id p → table.HasOnLine id q → p.name ≠ q.name →
      (p.memberName = q.memberName ↔
        Naming.Renames p.name q.name ∨ Naming.Renames q.name p.name)) ∧
    ((∀ p q, table.HasOnLine id p → table.HasOnLine id q → p.name ≠ q.name →
        p.memberName ≠ q.memberName) ↔
      ∀ p q, table.HasOnLine id p → table.HasOnLine id q → ¬Naming.Renames p.name q.name) := by
  have hclash (p q : Property) (hp : table.HasOnLine id p) (hq : table.HasOnLine id q)
      (hname : p.name ≠ q.name) : p.memberName = q.memberName ↔
        Naming.Renames p.name q.name ∨ Naming.Renames q.name p.name := by
    obtain ⟨x, -, hp⟩ := hp
    obtain ⟨y, -, hq⟩ := hq
    rw [h.memberName hfinish hp, h.memberName hfinish hq, Naming.memberName_eq_iff,
      or_iff_right hname]
  refine ⟨hclash, ?_⟩
  constructor
  · intro hapart p q hp hq hrenames
    have hname : p.name ≠ q.name := by
      intro hname
      exact hrenames.not_mem (hname ▸ hrenames.1)
    exact hapart p q hp hq hname ((hclash p q hp hq hname).mpr (.inl hrenames))
  · intro hnone p q hp hq hname heq
    rcases (hclash p q hp hq hname).mp heq with hrenames | hrenames
    · exact hnone p q hp hq hrenames
    · exact hnone q p hq hp hrenames

def propertyOver (first second : String) : List (String × Json) :=
  [("c", .derivedFrom "b" first .number), ("b", .withProperty second .number)]

/-- The properties of a class and of its base, when the table has been computed. -/
theorem exists_properties_over (first second : String)
    (h : ((resolve 8 "c" (.onSchemas (propertyOver first second)) : Option _).bind fun resolved =>
      (finish 8 resolved.2).map fun finished => finished.1.map fun c =>
        c.object?.map fun object => (object.base, object.properties.map (·.name))) =
      some [some (some 1, [first]), some (none, [second])]) :
    ∃ ids draft table after p q, Called (.onSchemas (propertyOver first second)) ids draft ∧
      finish 8 draft = some (table, after) ∧ table.HasMember 0 p ∧ table.HasBase 0 1 ∧
      table.HasMember 1 q ∧ p.name = first ∧ q.name = second := by
  obtain ⟨ids, draft, table, after, hcalled, hfinish, htable⟩ := exists_finish _ _ _ h
  have hmember (id : ClassId) {base : Option ClassId} {name : String}
      (hid : (table.map fun c => c.object?.map fun object =>
        (object.base, object.properties.map (·.name)))[id]? = some (some (base, [name]))) :
      ∃ c object p, table.get? id = some c ∧ c.object? = some object ∧ object.base = base ∧
        p ∈ object.properties ∧ p.name = name := by
    rw [List.getElem?_map] at hid
    obtain ⟨c, hc, hclass⟩ := Option.map_eq_some_iff.mp hid
    obtain ⟨object, hobject, hfacts⟩ := Option.map_eq_some_iff.mp hclass
    obtain ⟨hbase, hnames⟩ := Prod.mk.inj hfacts
    obtain ⟨p, hp, hname⟩ := List.map_eq_singleton_iff.mp hnames
    exact ⟨c, object, p, hc, hobject, hbase, hp ▸ List.mem_singleton_self p, hname⟩
  obtain ⟨c, object, p, hc, hobject, hbase, hp, hfirst⟩ := hmember 0 (by rw [htable]; rfl)
  obtain ⟨b, above, q, hb, habove, -, hq, hsecond⟩ := hmember 1 (by rw [htable]; rfl)
  exact ⟨ids, draft, table, after, p, q, hcalled, hfinish, ⟨c, object, hc, hobject, hp⟩,
    ⟨c, object, hc, hobject, hbase⟩, ⟨b, above, hb, habove, hq⟩, hfirst, hsecond⟩

/-- Both names are reserved, and their members are apart. -/
theorem memberNames_apart_reserved :
    ∃ ids draft table after p q,
      Called (.onSchemas (propertyOver "class" "default")) ids draft ∧
      finish 8 draft = some (table, after) ∧ table.HasOnLine 0 p ∧ table.HasOnLine 0 q ∧
      p.name = "class" ∧ q.name = "default" ∧ p.memberName ≠ q.memberName := by
  obtain ⟨ids, draft, table, after, p, q, hcalled, hfinish, hp, hbase, hq, hfirst, hsecond⟩ :=
    exists_properties_over "class" "default" (by decide +kernel)
  have hpline : table.HasOnLine 0 p := ⟨0, .refl, hp⟩
  have hqline : table.HasOnLine 0 q := ⟨1, .single hbase, hq⟩
  have hname : p.name ≠ q.name := by
    rw [hfirst, hsecond]
    decide
  have hclash := (memberNames_apart hcalled hfinish 0).1 p q hpline hqline hname
  refine ⟨ids, draft, table, after, p, q, hcalled, hfinish, hpline, hqline, hfirst, hsecond, ?_⟩
  rw [ne_eq, hclash, hfirst, hsecond]
  rintro (⟨-, hending⟩ | ⟨-, hending⟩)
  · exact absurd hending (by decide)
  · exact absurd hending (by decide)

/-- A property called by a reserved word has the member name of another property of its base. -/
theorem memberNames_alike :
    ∃ ids draft table after p q,
      Called (.onSchemas (propertyOver "class" "classProperty")) ids draft ∧
      finish 8 draft = some (table, after) ∧ table.HasMember 0 p ∧ table.HasBase 0 1 ∧
      table.HasMember 1 q ∧ p.name ≠ q.name ∧ p.memberName = q.memberName := by
  obtain ⟨ids, draft, table, after, p, q, hcalled, hfinish, hp, hbase, hq, hfirst, hsecond⟩ :=
    exists_properties_over "class" "classProperty" (by decide +kernel)
  refine ⟨ids, draft, table, after, p, q, hcalled, hfinish, hp, hbase, hq, ?_, ?_⟩
  · rw [hfirst, hsecond]
    decide
  · rw [hcalled.memberName hfinish hp, hcalled.memberName hfinish hq, hfirst, hsecond]
    decide

end Drafting

end SchemaClasses
