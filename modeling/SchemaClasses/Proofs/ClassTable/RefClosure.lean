import SchemaClasses.Proofs.Drafting.Complete
import SchemaClasses.Proofs.Graph.TopologicalOrder

/-!
# The order of a reference closure

The closure of a class under references lists the class and the objects it needs, with dependencies
first as far as that is possible. A class comes before one that it refers to exactly when the other
leads to a cycle through classes that are found no earlier than the first; the first need not be on
that cycle.
-/

namespace SchemaClasses

namespace ClassTable

/-- One class refers to another. -/
def Refers (table : ClassTable) (n d : ClassId) : Prop :=
  ∃ c, table.get? n = some c ∧ d ∈ c.references

def found (table : ClassTable) (c : ClassDescriptor) : List ClassId :=
  (Graph.reachable (table.map (·.references)) c.id).filter (· ∈ c.refClosure)

/-- One class refers to another, and both are among the given ones. -/
def RefersAmong (table : ClassTable) (ids : List ClassId) (n d : ClassId) : Prop :=
  n ∈ ids ∧ d ∈ ids ∧ d ≠ n ∧ table.Refers n d

/-- Among the given classes, one leads to a cycle of two classes or more. -/
def LeadsToCycle (table : ClassTable) (ids : List ClassId) (d : ClassId) : Prop :=
  ∃ m, Relation.ReflTransGen (table.RefersAmong ids) d m ∧
    Relation.TransGen (table.RefersAmong ids) m m

end ClassTable

namespace Linking

variable {l : Linking} {id : ClassId}

theorem mem_table {c : ClassDescriptor} (h : c ∈ l.table) :
    ∃ draft, l.drafts[c.id]? = some draft ∧ c = l.classOf c.id draft := by
  obtain ⟨id, hid⟩ := List.mem_iff_getElem?.mp h
  obtain ⟨draft, hdraft, rfl⟩ := Option.map_eq_some_iff.mp ((l.table_get? id).symm.trans hid)
  exact ⟨draft, hdraft, rfl⟩

theorem table_references (l : Linking) : l.table.map (·.references) = l.references := by
  refine List.ext_getElem? fun id => ?_
  have hget : l.table[id]? = _ := l.table_get? id
  rw [List.getElem?_map, hget, references, List.getElem?_map]
  cases hdraft : l.drafts[id]? with
  | none => rfl
  | some draft => exact congrArg some (references_classOf hdraft)

theorem refers_iff {n d : ClassId} :
    l.table.Refers n d ↔ d ∈ (l.references[n]?).getD [] := by
  rw [← table_references, List.getElem?_map, ClassTable.Refers, ClassTable.get?]
  cases l.table[n]? with
  | none => simp
  | some c => simp

def needed (l : Linking) (id : ClassId) : List ClassId :=
  (Graph.reachable l.references id).filter fun n => n = id || l.isObject n

theorem refGraph_eq (l : Linking) (id : ClassId) :
    l.refGraph id = (l.needed id).map fun n =>
      (n, ((l.references[n]?).getD []).filter ((l.needed id).contains ·)) := rfl

theorem refGraph_nodes (l : Linking) (id : ClassId) :
    (l.refGraph id).map Prod.fst = l.needed id := by
  rw [refGraph_eq, List.map_map]
  exact List.map_id _

theorem refGraph_distinct (l : Linking) (id : ClassId) :
    ((l.refGraph id).map Prod.fst).Nodup := by
  rw [refGraph_nodes]
  exact (Graph.reachable_nodup _ _).filter _

theorem mem_refClosure {n : ClassId} : n ∈ l.refClosure id ↔ n ∈ l.needed id := by
  rw [refClosure, (Graph.topologicalOrder_perm (l.refGraph_distinct id)).mem_iff, refGraph_nodes]

theorem found_eq (l : Linking) (id : ClassId) (draft : DraftClass) :
    l.table.found (l.classOf id draft) = l.needed id := by
  have hid : (l.classOf id draft).id = id := rfl
  have hclosure : (l.classOf id draft).refClosure = l.refClosure id := rfl
  rw [ClassTable.found, table_references, hid, hclosure, needed]
  refine List.filter_congr fun n hn => ?_
  have hiff : n ∈ l.refClosure id ↔ (n = id || l.isObject n) = true := by
    rw [mem_refClosure, needed, List.mem_filter]
    exact and_iff_right hn
  rw [Bool.eq_iff_iff, decide_eq_true_iff, hiff]

/-- Edges of the graph among the classes from one on are references among them. -/
theorem leads_iff {first n d : ClassId} :
    Graph.Leads (Graph.startingAt (l.refGraph id) first) n d ↔
      l.table.RefersAmong ((l.needed id).dropWhile (· ≠ first)) n d := by
  have hstarting : Graph.startingAt (l.refGraph id) first =
      ((l.needed id).dropWhile (· ≠ first)).map fun n =>
        (n, ((l.references[n]?).getD []).filter ((l.needed id).contains ·)) := by
    rw [refGraph_eq, Graph.startingAt, List.dropWhile_map]
    rfl
  have hsub {n : ClassId} (h : n ∈ (l.needed id).dropWhile (· ≠ first)) : n ∈ l.needed id :=
    (List.dropWhile_sublist _).mem h
  rw [Graph.Leads, ClassTable.RefersAmong, refers_iff, hstarting, List.map_map]
  constructor
  · rintro ⟨⟨deps, hmem, hd⟩, hne, hnode⟩
    obtain ⟨n, hn, heq⟩ := List.mem_map.mp hmem
    obtain ⟨rfl, rfl⟩ := Prod.mk.inj heq
    obtain ⟨d, hd', rfl⟩ := List.mem_map.mp hnode
    exact ⟨hn, hd', hne, (List.mem_filter.mp hd).1⟩
  · rintro ⟨hn, hd, hne, href⟩
    refine ⟨⟨_, List.mem_map_of_mem hn, List.mem_filter.mpr ⟨href, ?_⟩⟩, hne, ?_⟩
    · exact List.contains_iff_mem.mpr (hsub hd)
    · exact List.mem_map.mpr ⟨d, hd, rfl⟩

theorem leadsToCycle_iff {first d : ClassId} :
    Graph.LeadsToCycle (Graph.startingAt (l.refGraph id) first) d ↔
      l.table.LeadsToCycle ((l.needed id).dropWhile (· ≠ first)) d := by
  have hrel : Graph.Leads (Graph.startingAt (l.refGraph id) first) =
      l.table.RefersAmong ((l.needed id).dropWhile (· ≠ first)) :=
    funext fun n => funext fun d => propext leads_iff
  rw [Graph.LeadsToCycle, ClassTable.LeadsToCycle, hrel]

end Linking

namespace Drafting

variable {depth : Nat} {draft after : Draft} {table : ClassTable}

/-- In the closure of a class, a class comes before one that it refers to exactly when, among the
classes of the closure that are found no earlier, the other leads to a cycle. -/
theorem refClosure_idxOf_lt_iff (h : finish depth draft = some (table, after))
    {c : ClassDescriptor} (hc : c ∈ table) {n d : ClassId} (hn : n ∈ c.refClosure)
    (hd : d ∈ c.refClosure) (hne : n ≠ d) (href : table.Refers n d) :
    c.refClosure.idxOf n < c.refClosure.idxOf d ↔
      table.LeadsToCycle ((table.found c).dropWhile (· ≠ n)) d := by
  obtain ⟨drained, -, rfl, -⟩ := finish_inv h
  obtain ⟨drafted, -, heq⟩ := Linking.mem_table hc
  have hclosure : c.refClosure = drained.linking.refClosure c.id := by
    rw [heq]
    rfl
  rw [hclosure, Linking.mem_refClosure] at hn hd
  have hfound : drained.linking.table.found c = drained.linking.needed c.id := by
    rw [heq]
    exact Linking.found_eq _ _ _
  have hleads : Graph.Leads (drained.linking.refGraph c.id) n d := by
    refine ⟨⟨_, List.mem_map_of_mem hn, List.mem_filter.mpr ⟨Linking.refers_iff.mp href, ?_⟩⟩,
      Ne.symm hne, ?_⟩
    · exact List.contains_iff_mem.mpr hd
    · rwa [Linking.refGraph_nodes]
  rw [hclosure, hfound, Linking.refClosure,
    Graph.topologicalOrder_idxOf_lt_iff (Linking.refGraph_distinct _ _) hleads,
    Linking.leadsToCycle_iff]

/-- A schema that refers to one of two that refer to each other. -/
def ahead : Draft :=
  .new (.new (.ofSchemas [
    ("c", .withProperty "a" (.referringTo "a")),
    ("a", .withProperty "b" (.referringTo "b")),
    ("b", .withProperty "a" (.referringTo "a"))]) ["/s"] []) .empty (.ofNamespace "N")

theorem ahead_finish :
    ∃ draft c a b after, resolve 8 "c" ahead = some (some 0, draft) ∧
      finish 8 draft = some ([c, a, b], after) ∧
      (c.references = [1] ∧ c.refClosure = [0, 1, 2]) ∧ a.references = [2] ∧
      b.references = [1] := by
  have hresolve : (resolve 8 "c" ahead : Option _).map (·.1) = some (some 0) := by decide +kernel
  have hfinish : ((resolve 8 "c" ahead : Option _).bind fun resolved => (finish 8 resolved.2).map
      fun finished => finished.1.map fun c => (c.references, c.refClosure)) =
      some [([1], [0, 1, 2]), ([2], [1, 2]), ([1], [2, 1])] := by
    decide +kernel
  obtain ⟨⟨found, draft⟩, hcall, rfl⟩ := Option.map_eq_some_iff.mp hresolve
  rw [hcall, Option.bind_some] at hfinish
  obtain ⟨⟨table, after⟩, hlinked, htable⟩ := Option.map_eq_some_iff.mp hfinish
  obtain ⟨c, rest, rfl, hc, hrest⟩ := List.map_eq_cons_iff.mp htable
  obtain ⟨a, rest, rfl, ha, hrest⟩ := List.map_eq_cons_iff.mp hrest
  obtain ⟨b, rest, rfl, hb, hrest⟩ := List.map_eq_cons_iff.mp hrest
  obtain rfl := List.map_eq_nil_iff.mp hrest
  exact ⟨draft, c, a, b, after, hcall, hlinked, Prod.mk.inj hc, (Prod.mk.inj ha).1,
    (Prod.mk.inj hb).1⟩

/-- A class may come before one that it refers to though nothing leads back to it. -/
theorem refClosure_referrer_first :
    ∃ draft table after, resolve 8 "c" ahead = some (some 0, draft) ∧
      finish 8 draft = some (table, after) ∧
      ∃ c ∈ table, ∃ n ∈ c.refClosure, ∃ d ∈ c.refClosure, n ≠ d ∧ table.Refers n d ∧
        ¬Relation.ReflTransGen table.Refers d n ∧
        ¬c.refClosure.idxOf d < c.refClosure.idxOf n := by
  obtain ⟨draft, c, a, b, after, hresolve, hfinish, ⟨hc, hclosure⟩, ha, hb⟩ := ahead_finish
  have hnone {n d : ClassId} (h : ClassTable.Refers [c, a, b] n d) : d ≠ 0 := by
    obtain ⟨k, hk, hd⟩ := h
    have hmem : k ∈ [c, a, b] := List.mem_of_getElem? hk
    simp only [List.mem_cons, List.not_mem_nil, or_false] at hmem
    rintro rfl
    obtain rfl | rfl | rfl := hmem
    · simp [hc] at hd
    · simp [ha] at hd
    · simp [hb] at hd
  refine ⟨draft, [c, a, b], after, hresolve, hfinish, c, List.mem_cons_self, 0, by simp [hclosure],
    1, by simp [hclosure], by decide, ⟨c, rfl, by simp [hc]⟩, fun h => ?_, by simp [hclosure]⟩
  rcases h.cases_tail with heq | ⟨k, -, hk⟩
  · cases heq
  · exact hnone hk rfl

/-- What comes first there leads to the cycle of the other two. -/
theorem refClosure_idxOf_lt_ahead :
    ∃ draft table after c, finish 8 draft = some (table, after) ∧ c ∈ table ∧
      c.refClosure = [0, 1, 2] ∧ table.LeadsToCycle ((table.found c).dropWhile (· ≠ 0)) 1 := by
  obtain ⟨draft, c, a, b, after, -, hfinish, ⟨hc, hclosure⟩, -, -⟩ := ahead_finish
  have hiff := refClosure_idxOf_lt_iff hfinish List.mem_cons_self (c := c) (n := 0) (d := 1)
    (by simp [hclosure]) (by simp [hclosure]) (by decide) ⟨c, rfl, by simp [hc]⟩
  exact ⟨draft, [c, a, b], after, c, hfinish, List.mem_cons_self, hclosure,
    hiff.mp (by simp [hclosure])⟩

end Drafting

end SchemaClasses
