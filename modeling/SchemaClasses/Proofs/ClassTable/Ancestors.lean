import Mathlib.Data.List.Perm.Subperm
import Mathlib.Data.Set.Finite.List
import Mathlib.Logic.Relation
import SchemaClasses.Proofs.ClassTable.InRange

/-!
# The bases of a class

The way up from a class stops where it would come back to a class it has passed, and its bound is
never what stops it. So the bases of a class are all the other classes that its base, the base of
its base and so on lead to.
-/

namespace SchemaClasses

namespace ClassTable

/-- One class is the base of another. -/
def HasBase (table : ClassTable) (id base : ClassId) : Prop :=
  ∃ c object, table.get? id = some c ∧ c.object? = some object ∧ object.base = some base

/-- A class is another or one of the classes above it. -/
def AtOrAbove (table : ClassTable) : ClassId → ClassId → Prop :=
  Relation.ReflTransGen table.HasBase

end ClassTable

namespace Linking

variable {l : Linking}

/-- The base that linking goes up to. -/
def Up (l : Linking) (id base : ClassId) : Prop := l.baseAt id = some base

theorem Up.lt {id base : ClassId} (h : l.Up id base) : base < l.drafts.length :=
  lt_of_isObject (isObject_of_baseAt h)

/-- Going up takes only classes it has not passed, one from another. -/
theorem climb_sound {limit : Nat} {seen : List ClassId} {next : Option ClassId} :
    ∀ x ∈ (l.climb limit seen next).1,
      x ∉ seen ∧ ∃ first, next = some first ∧ Relation.ReflTransGen l.Up first x := by
  induction limit generalizing seen next with
  | zero => cases next <;> simp [climb]
  | succ limit ih =>
    cases next with
    | none => simp [climb]
    | some base =>
      rw [climb]
      split
      · simp
      · rename_i hbase
        intro x hx
        rcases List.mem_cons.mp hx with rfl | hx
        · exact ⟨hbase, x, rfl, .refl⟩
        · obtain ⟨hseen, first, hfirst, hup⟩ := ih x hx
          exact ⟨fun hmem => hseen (List.mem_cons_of_mem _ hmem), base, rfl, .head hfirst hup⟩

/-- Going up has passed each of some classes once, and has only `next` left to go to from them. -/
structure Passed (l : Linking) (seen : List ClassId) (next : Option ClassId) : Prop where
  nodup : seen.Nodup
  lt : ∀ s ∈ seen, s < l.drafts.length
  next_lt : ∀ base, next = some base → base < l.drafts.length
  up : ∀ s ∈ seen, ∀ t, l.Up s t → t ∈ seen ∨ next = some t

namespace Passed

variable {seen : List ClassId} {next : Option ClassId}

theorem start {id : ClassId} (hid : id < l.drafts.length) : l.Passed [id] (l.baseAt id) where
  nodup := List.nodup_singleton id
  lt := by simpa using hid
  next_lt := fun _ hnext => Up.lt hnext
  up := by
    intro s hs t ht
    rw [List.mem_singleton.mp hs] at ht
    exact .inr ht

theorem length_le (h : l.Passed seen next) : seen.length ≤ l.drafts.length := by
  have hsub : seen ⊆ List.range l.drafts.length := fun s hs => List.mem_range.mpr (h.lt s hs)
  have hlength := (h.nodup.subperm hsub).length_le
  rwa [List.length_range] at hlength

theorem step {base : ClassId} (h : l.Passed seen (some base)) (hbase : base ∉ seen) :
    l.Passed (base :: seen) (l.baseAt base) where
  nodup := List.nodup_cons.mpr ⟨hbase, h.nodup⟩
  lt := List.forall_mem_cons.mpr ⟨h.next_lt base rfl, h.lt⟩
  next_lt := fun _ hnext => Up.lt hnext
  up := by
    intro s hs t ht
    rcases List.mem_cons.mp hs with rfl | hs
    · exact .inr ht
    · rcases h.up s hs t ht with hmem | heq
      · exact .inl (List.mem_cons_of_mem _ hmem)
      · exact .inl (Option.some.inj heq ▸ List.mem_cons_self)

/-- What has been passed and what is still taken leads up to nothing else. -/
theorem climb_closed {limit : Nat} (h : l.Passed seen next)
    (hlimit : l.drafts.length < limit + seen.length) :
    ∀ s ∈ seen ++ (l.climb limit seen next).1, ∀ t, l.Up s t →
      t ∈ seen ++ (l.climb limit seen next).1 := by
  induction limit generalizing seen next with
  | zero =>
    have := h.length_le
    omega
  | succ limit ih =>
    cases next with
    | none =>
      intro s hs t ht
      simp only [climb, List.append_nil] at hs ⊢
      exact (h.up s hs t ht).resolve_right (by simp)
    | some base =>
      rw [climb]
      split
      · rename_i hbase
        intro s hs t ht
        simp only [List.append_nil] at hs ⊢
        rcases h.up s hs t ht with hmem | heq
        · exact hmem
        · exact Option.some.inj heq ▸ hbase
      · rename_i hbase
        have hclosed := ih (h.step hbase) (by rw [List.length_cons]; omega)
        have hmiddle (rest : List ClassId) (x : ClassId) :
            x ∈ (base :: seen) ++ rest ↔ x ∈ seen ++ base :: rest :=
          List.perm_middle.symm.mem_iff
        simpa only [hmiddle] using hclosed

end Passed

/-- Two ways up are the same when what has been passed before them agrees on all that lies above. -/
theorem climb_congr {limit limit' : Nat} {seen seen' : List ClassId} {next : Option ClassId}
    (passed : l.Passed seen next) (passed' : l.Passed seen' next)
    (hlimit : l.drafts.length < limit + seen.length)
    (hlimit' : l.drafts.length < limit' + seen'.length)
    (agree : ∀ first x, next = some first → Relation.ReflTransGen l.Up first x →
      (x ∈ seen ↔ x ∈ seen')) :
    (l.climb limit seen next).1 = (l.climb limit' seen' next).1 := by
  induction limit generalizing limit' seen seen' next with
  | zero =>
    have := passed.length_le
    omega
  | succ limit ih =>
    cases limit' with
    | zero =>
      have := passed'.length_le
      omega
    | succ limit' =>
      cases next with
      | none => rfl
      | some base =>
        have hbase := agree base base rfl .refl
        rw [climb, climb]
        by_cases hseen : base ∈ seen
        · rw [if_pos hseen, if_pos (hbase.mp hseen)]
        · have hseen' := hbase.not.mp hseen
          rw [if_neg hseen, if_neg hseen']
          refine congrArg (base :: ·) (ih (passed.step hseen) (passed'.step hseen') ?_ ?_ ?_)
          · rw [List.length_cons]
            omega
          · rw [List.length_cons]
            omega
          · intro first x hfirst hup
            rw [List.mem_cons, List.mem_cons, agree base x rfl (.head hfirst hup)]

/-- A class has its base and the bases of that, unless they lead back to it. -/
theorem ancestors_eq_cons {id base : ClassId} (hup : l.Up id base) (hne : base ≠ id)
    (hback : ¬Relation.ReflTransGen l.Up base id) :
    l.ancestors id = base :: l.ancestors base := by
  have hid : id < l.drafts.length := by
    by_contra hge
    rw [Up, baseAt, List.getElem?_eq_none (Nat.not_lt.mp hge)] at hup
    cases hup
  have passed : l.Passed [id] (some base) := hup ▸ Passed.start hid
  have hbase : base ∉ [id] := by simpa using hne
  have hline : l.ancestors id = base :: (l.climb l.drafts.length [base, id] (l.baseAt base)).1 := by
    rw [ancestors, lineOf, show l.baseAt id = some base from hup, climb, if_neg hbase]
  rw [hline, ancestors, lineOf]
  refine congrArg (base :: ·) (climb_congr (passed.step hbase) (Passed.start hup.lt) ?_ ?_ ?_)
  · rw [List.length_cons]
    omega
  · rw [List.length_singleton]
    omega
  · intro first x hfirst habove
    rw [List.mem_cons, List.mem_singleton, List.mem_singleton]
    refine or_iff_left ?_
    rintro rfl
    exact hback (.head hfirst habove)

/-- The bases of a class are the other classes that going up leads to. -/
theorem mem_ancestors_iff_up {id x : ClassId} :
    x ∈ l.ancestors id ↔ x ≠ id ∧ Relation.ReflTransGen l.Up id x := by
  constructor
  · intro hx
    obtain ⟨hne, first, hfirst, hup⟩ := climb_sound x hx
    exact ⟨fun heq => hne (List.mem_singleton.mpr heq), .head hfirst hup⟩
  · rintro ⟨hne, hup⟩
    rcases hup.cases_head with rfl | ⟨first, hfirst, -⟩
    · exact absurd rfl hne
    · have hid : id < l.drafts.length := by
        by_contra hge
        rw [Up, baseAt, List.getElem?_eq_none (Nat.not_lt.mp hge)] at hfirst
        cases hfirst
      have hclosed : ∀ s ∈ [id] ++ l.ancestors id, ∀ t, l.Up s t → t ∈ [id] ++ l.ancestors id :=
        (Passed.start hid).climb_closed (by rw [List.length_singleton]; omega)
      have hmem : x ∈ [id] ++ l.ancestors id := by
        clear hne
        induction hup with
        | refl => exact List.mem_append_left _ (List.mem_singleton_self id)
        | tail _ hstep ih => exact hclosed _ ih _ hstep
      rcases List.mem_append.mp hmem with h | h
      · exact absurd (List.mem_singleton.mp h) hne
      · exact h

theorem ancestors_head? (l : Linking) (id : ClassId) :
    (l.ancestors id).head? = (l.baseAt id).filter (· ≠ id) := by
  rw [ancestors, lineOf]
  cases hbase : l.baseAt id with
  | none => rfl
  | some base =>
    rw [climb]
    by_cases h : base = id <;> simp [h, Option.filter]

theorem kind_classOf (l : Linking) (id : ClassId) (draft : DraftClass) :
    (l.classOf id draft).kind = l.kind id draft := rfl

theorem isObject_classOf {id : ClassId} {draft : DraftClass} :
    (l.classOf id draft).object?.isSome = draft.body.isObject := by
  rw [ClassDescriptor.object?, kind_classOf, kind]
  cases draft.body <;> rfl

/-- The object of a class of the table, in terms of its draft. -/
theorem object?_classOf {id : ClassId} {draft : DraftClass} {object : ObjectClass} :
    (l.classOf id draft).object? = some object ↔ ∃ base declared members,
      draft.body = .object base declared members ∧
        object = l.object id draft.typeName members := by
  rw [ClassDescriptor.object?, kind_classOf, kind]
  cases draft.body with
  | object base declared members =>
    simp only [Option.some.injEq, DraftBody.object.injEq]
    constructor
    · rintro rfl
      exact ⟨base, declared, members, ⟨rfl, rfl, rfl⟩, rfl⟩
    · rintro ⟨_, _, _, ⟨rfl, rfl, rfl⟩, rfl⟩
      rfl
  | enumeration | value | unsupported => simp

theorem hasBase_iff {id base : ClassId} : l.table.HasBase id base ↔ l.Up id base ∧ base ≠ id := by
  have hhead {members : List Property} {typeName : String} :
      (l.object id typeName members).base = some base ↔ l.Up id base ∧ base ≠ id := by
    change (l.ancestors id).head? = some base ↔ _
    rw [ancestors_head?, Option.filter_eq_some_iff, Up, decide_eq_true_iff]
  constructor
  · rintro ⟨c, object, hc, hobject, hbase⟩
    rw [table_get?] at hc
    obtain ⟨draft, -, rfl⟩ := Option.map_eq_some_iff.mp hc
    obtain ⟨_, _, members, -, rfl⟩ := object?_classOf.mp hobject
    exact hhead.mp hbase
  · intro h
    obtain ⟨draft, hdraft, hup⟩ := Option.bind_eq_some_iff.mp h.1
    obtain ⟨named, hnamed, -⟩ := Option.bind_eq_some_iff.mp hup
    cases hbody : draft.body with
    | object first declared members =>
      refine ⟨l.classOf id draft, l.object id draft.typeName members, ?_,
        object?_classOf.mpr ⟨first, declared, members, hbody, rfl⟩, hhead.mpr h⟩
      rw [table_get?, hdraft, Option.map_some]
    | enumeration | value | unsupported => simp [namedBase?, hbody] at hnamed

theorem atOrAbove_iff {id x : ClassId} :
    l.table.AtOrAbove id x ↔ Relation.ReflTransGen l.Up id x := by
  constructor
  · exact Relation.ReflTransGen.mono (fun _ _ h => (hasBase_iff.mp h).1) _ _
  · intro h
    induction h with
    | refl => exact .refl
    | @tail b c _ hstep ih =>
      by_cases heq : c = b
      · exact heq ▸ ih
      · exact ih.tail (hasBase_iff.mpr ⟨hstep, heq⟩)

/-- The bases of a class are the other classes above it in the table. -/
theorem mem_ancestors_iff {id x : ClassId} :
    x ∈ l.ancestors id ↔ x ≠ id ∧ l.table.AtOrAbove id x := by
  rw [mem_ancestors_iff_up, atOrAbove_iff]

theorem finite_line (l : Linking) (id : ClassId) : {x | l.table.AtOrAbove id x}.Finite := by
  refine (List.finite_toSet (id :: l.ancestors id)).subset fun x hx => ?_
  by_cases heq : x = id
  · exact heq ▸ List.mem_cons_self
  · exact List.mem_cons_of_mem _ (mem_ancestors_iff.mpr ⟨heq, hx⟩)

end Linking

end SchemaClasses
