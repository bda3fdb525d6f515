import SchemaClasses.Proofs.ClassTable.Ancestors
import SchemaClasses.Proofs.ClassTable.RefClosure

/-!
# What the closures of a class contain

A closure has every class once that paths of one link or more lead to, of the kinds that it is
about; the classes on the way may be of any kind. The closure under references has the class itself
as well. The closure of subtypes leaves it out, and its paths do not go to a base that no property
refers to.
-/

namespace SchemaClasses

/-- Whether a class is an object or an enumeration. -/
def ClassDescriptor.isType (c : ClassDescriptor) : Bool :=
  match c.kind with
  | .object _ => true
  | .enumeration _ => true
  | _ => false

/-- The type of a property of one class, or the type that stands for it, refers to another. -/
def Draft.PropertyRefers (draft : Draft) (n d : ClassId) : Prop :=
  ∃ drafted, draft.classAt? n = some drafted ∧ ∃ type ∈ drafted.body.types, d ∈ type.classes

namespace Linking

variable {l : Linking} {id n : ClassId}

theorem isType_classOf {draft : DraftClass} :
    (l.classOf id draft).isType = draft.body.isType := by
  rw [ClassDescriptor.isType, kind_classOf, kind]
  cases draft.body <;> rfl

theorem isObject_iff_get? :
    l.isObject n = true ↔ ∃ k, l.table.get? n = some k ∧ k.object?.isSome = true := by
  rw [table_get?, isObject]
  cases l.drafts[n]? with
  | none => simp
  | some draft => simp [isObject_classOf]

theorem isType_iff_get? :
    l.isType n = true ↔ ∃ k, l.table.get? n = some k ∧ k.isType = true := by
  rw [table_get?, isType]
  cases l.drafts[n]? with
  | none => simp
  | some draft => simp [isType_classOf]

theorem refers_eq (l : Linking) : l.table.Refers = Graph.Edge l.references :=
  funext fun _ => funext fun _ => propext refers_iff

theorem refClosure_nodup (l : Linking) (id : ClassId) : (l.refClosure id).Nodup := by
  have hperm := Graph.topologicalOrder_perm (l.refGraph_distinct id)
  exact hperm.nodup_iff.mpr (l.refGraph_distinct id)

/-- The closure under references has the class and all objects on paths from it. -/
theorem mem_refClosure_iff : n ∈ l.refClosure id ↔
    n = id ∨ (l.isObject n = true ∧ Relation.TransGen l.table.Refers id n) := by
  rw [mem_refClosure, needed, List.mem_filter, Graph.mem_reachable, ← refers_eq]
  simp only [Bool.or_eq_true, decide_eq_true_eq]
  constructor
  · rintro ⟨hreach, rfl | hobject⟩
    · exact .inl rfl
    · rcases Relation.reflTransGen_iff_eq_or_transGen.mp hreach with heq | hpath
      · exact .inl heq
      · exact .inr ⟨hobject, hpath⟩
  · rintro (rfl | ⟨hobject, hpath⟩)
    · exact ⟨.refl, .inl rfl⟩
    · exact ⟨hpath.to_reflTransGen, .inr hobject⟩

theorem subtypeClosure_nodup (l : Linking) (id : ClassId) : (l.subtypeClosure id).Nodup :=
  (Graph.reachable_nodup _ _).filter _

theorem mem_subtypeClosure_iff : n ∈ l.subtypeClosure id ↔
    n ≠ id ∧ l.isType n = true ∧
      Relation.TransGen (Graph.Edge l.propertyReferences) id n := by
  rw [subtypeClosure, List.mem_filter, Graph.mem_reachable]
  simp only [Bool.and_eq_true, decide_eq_true_eq]
  constructor
  · rintro ⟨hreach, hne, htype⟩
    rcases Relation.reflTransGen_iff_eq_or_transGen.mp hreach with heq | hpath
    · exact absurd heq hne
    · exact ⟨hne, htype, hpath⟩
  · rintro ⟨hne, htype, hpath⟩
    exact ⟨hpath.to_reflTransGen, hne, htype⟩

end Linking

namespace Draft

variable {draft : Draft}

/-- Linking finds the references of properties in what was drafted; in an empty place it finds
none. -/
theorem propertyRefers_iff {n d : ClassId} :
    draft.PropertyRefers n d ↔ Graph.Edge draft.linking.propertyReferences n d := by
  rw [PropertyRefers, Graph.Edge, Linking.propertyReferences, linking, List.map_map,
    List.getElem?_map, classAt?]
  cases hplace : draft.places[n]? with
  | none => simp
  | some place =>
    cases hdrafted : place.drafted with
    | none =>
      simp [hdrafted, Place.finished, Linking.propertyReferencesOf, DraftBody.types,
        Ordered.mem_ofList]
    | some drafted =>
      simp [hdrafted, Place.finished, Linking.propertyReferencesOf, Ordered.mem_ofList]

end Draft

namespace Drafting

variable {depth : Nat} {draft after : Draft} {table : ClassTable}

/-- Closures are exact, in whatever circles classes refer to each other. -/
theorem mem_closures_iff (h : finish depth draft = some (table, after)) {c : ClassDescriptor}
    (hc : c ∈ table) :
    (c.refClosure.Nodup ∧ ∀ n, n ∈ c.refClosure ↔
      n = c.id ∨ (∃ k, table.get? n = some k ∧ k.object?.isSome = true) ∧
        Relation.TransGen table.Refers c.id n) ∧
    (c.subtypeClosure.Nodup ∧ ∀ n, n ∈ c.subtypeClosure ↔
      n ≠ c.id ∧ (∃ k, table.get? n = some k ∧ k.isType = true) ∧
        Relation.TransGen after.PropertyRefers c.id n) := by
  obtain ⟨drained, -, rfl, htell⟩ := finish_inv h
  obtain rfl := tell_inv htell
  obtain ⟨drafted, -, heq⟩ := Linking.mem_table hc
  have hrefs : c.refClosure = drained.linking.refClosure c.id := by
    rw [heq]
    rfl
  have hsubtypes : c.subtypeClosure = drained.linking.subtypeClosure c.id := by
    rw [heq]
    rfl
  have hproperties : drained.PropertyRefers =
      Graph.Edge drained.linking.propertyReferences :=
    funext fun _ => funext fun _ => propext Draft.propertyRefers_iff
  rw [hrefs, hsubtypes]
  refine ⟨⟨Linking.refClosure_nodup _ _, fun n => ?_⟩,
    ⟨Linking.subtypeClosure_nodup _ _, fun n => ?_⟩⟩
  · rw [Linking.mem_refClosure_iff, Linking.isObject_iff_get?]
  · rw [Linking.mem_subtypeClosure_iff, Linking.isType_iff_get?, ← hproperties]
    rfl

/-- The last class of the two that refer to each other is found from the one ahead of them, which no
class refers to. -/
theorem mem_closures_ahead :
    ∃ draft table after c, finish 8 draft = some (table, after) ∧ c ∈ table ∧
      c.refClosure = [0, 1, 2] ∧ (∃ k, table.get? 2 = some k ∧ k.object?.isSome = true) ∧
      Relation.TransGen table.Refers c.id 2 := by
  obtain ⟨draft, c, a, b, after, -, hfinish, ⟨-, hclosure⟩, -, -⟩ := ahead_finish
  have hexact := (mem_closures_iff hfinish (List.mem_cons_self (a := c))).1.2 2
  have hmem : 2 ∈ c.refClosure := by simp [hclosure]
  obtain ⟨drained, -, htable, -⟩ := finish_inv hfinish
  have hid : c.id = 0 := by
    have hget := Linking.table_get? drained.linking 0
    rw [← htable] at hget
    obtain ⟨drafted, -, heq⟩ := Option.map_eq_some_iff.mp hget.symm
    rw [← heq]
    rfl
  have hpath := (hexact.mp hmem).resolve_left (by simp [hid])
  exact ⟨draft, [c, a, b], after, c, hfinish, List.mem_cons_self, hclosure, hpath⟩

end Drafting

end SchemaClasses
