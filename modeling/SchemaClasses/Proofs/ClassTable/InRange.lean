import SchemaClasses.Proofs.Drafting.Drafted
import SchemaClasses.Proofs.Graph.Reachable

/-!
# Linking within the table

When the types and bases of all drafts name classes of the table, linking looks at no place outside
of it: not on the way up from a class, and not along references.
-/

namespace SchemaClasses.Linking

variable {l : Linking}

theorem table_get? (l : Linking) (id : ClassId) :
    l.table.get? id = (l.drafts[id]?).map (l.classOf id) :=
  List.getElem?_mapIdx

theorem length_table (l : Linking) : l.table.length = l.drafts.length :=
  List.length_mapIdx

/-- Every class that a draft names is in the table. -/
def Closed (l : Linking) : Prop :=
  ∀ draft ∈ l.drafts, ∀ id ∈ draft.body.ids, id < l.drafts.length

/-- The places that linking the class at a place looks at are in the table. -/
structure InRange (l : Linking) (id : ClassId) : Prop where
  ancestors : ∀ above ∈ l.ancestors id, above < l.drafts.length
  met : ∀ met, (l.lineOf id).2 = some met → met < l.drafts.length
  references : ∀ other ∈ Graph.reachable l.references id, other < l.drafts.length
  propertyReferences : ∀ other ∈ Graph.reachable l.propertyReferences id,
    other < l.drafts.length

theorem isObject_of_baseOf {draft : DraftClass} {base : ClassId} (h : l.baseOf draft = some base) :
    l.isObject base = true := by
  obtain ⟨id, -, h⟩ := Option.bind_eq_some_iff.mp h
  obtain ⟨name, hname, h⟩ := Option.bind_eq_some_iff.mp h
  split at h
  · cases h
  · obtain rfl := Option.some.inj h
    obtain ⟨drafted, hdrafted, hobject⟩ := Option.bind_eq_some_iff.mp hname
    rw [isObject, hdrafted]
    split at hobject
    · simpa using ‹drafted.body.isObject = true›
    · cases hobject

theorem lt_of_isObject {id : ClassId} (h : l.isObject id = true) : id < l.drafts.length := by
  unfold isObject at h
  by_contra hge
  rw [List.getElem?_eq_none (Nat.not_lt.mp hge)] at h
  cases h

theorem isObject_of_baseAt {id base : ClassId} (h : l.baseAt id = some base) :
    l.isObject base = true := by
  obtain ⟨draft, -, h⟩ := Option.bind_eq_some_iff.mp h
  exact isObject_of_baseOf h

/-- Going up takes only objects, and meets only them or a class that it has passed. -/
theorem climb_isObject (limit : Nat) (seen : List ClassId) (next : Option ClassId)
    (hnext : ∀ base, next = some base → l.isObject base = true) :
    (∀ above ∈ (l.climb limit seen next).1, l.isObject above = true) ∧
      ∀ met, (l.climb limit seen next).2 = some met → l.isObject met = true := by
  induction limit generalizing seen next with
  | zero => cases next <;> simp [climb]
  | succ limit ih =>
    cases next with
    | none => simp [climb]
    | some base =>
      rw [climb]
      have hbase := hnext base rfl
      split
      · simpa using hbase
      · obtain ⟨habove, hmet⟩ := ih (base :: seen) (l.baseAt base) fun _ => isObject_of_baseAt
        refine ⟨fun above h => ?_, hmet⟩
        rcases List.mem_cons.mp h with rfl | h
        · exact hbase
        · exact habove above h

theorem references_classOf {id : ClassId} {draft : DraftClass} (h : l.drafts[id]? = some draft) :
    (l.classOf id draft).references =
      Ordered.union (l.baseOf draft).toList (propertyReferencesOf draft) := by
  change (l.references[id]?).getD [] = _
  rw [references, List.getElem?_map, h]
  rfl

theorem mem_references_classOf {id other : ClassId} {draft : DraftClass}
    (h : l.drafts[id]? = some draft) :
    other ∈ (l.classOf id draft).references ↔
      l.baseOf draft = some other ∨ ∃ type ∈ draft.body.types, other ∈ type.classes := by
  rw [references_classOf h, Ordered.mem_union, Option.mem_toList, propertyReferencesOf,
    Ordered.mem_ofList, List.mem_flatMap]

namespace Closed

theorem propertyReferences_lt (closed : l.Closed) :
    ∀ targets ∈ l.propertyReferences, ∀ id ∈ targets, id < l.drafts.length := by
  intro targets htargets id hid
  obtain ⟨draft, hdraft, rfl⟩ := List.mem_map.mp htargets
  exact closed draft hdraft id (List.mem_append_right _ (Ordered.mem_ofList.mp hid))

theorem references_lt (closed : l.Closed) :
    ∀ targets ∈ l.references, ∀ id ∈ targets, id < l.drafts.length := by
  intro targets htargets id hid
  obtain ⟨draft, hdraft, rfl⟩ := List.mem_map.mp htargets
  rcases Ordered.mem_union.mp hid with hbase | hid
  · exact lt_of_isObject (isObject_of_baseOf (Option.mem_toList.mp hbase))
  · exact closed draft hdraft id (List.mem_append_right _ (Ordered.mem_ofList.mp hid))

theorem inRange (closed : l.Closed) {id : ClassId} (hid : id < l.drafts.length) :
    l.InRange id := by
  obtain ⟨habove, hmet⟩ := climb_isObject (l := l) (l.drafts.length + 1) [id]
    (l.baseAt id) fun _ => isObject_of_baseAt
  exact ⟨fun above h => lt_of_isObject (habove above h),
    fun met h => lt_of_isObject (hmet met h),
    Graph.reachable_lt closed.references_lt hid,
    Graph.reachable_lt closed.propertyReferences_lt hid⟩

end Closed

end SchemaClasses.Linking
