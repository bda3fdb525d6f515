import Mathlib.Data.Finset.Card
import SchemaClasses.Proofs.ClassTable.RefClosure
import SchemaClasses.Proofs.Generation.WorkOrder

/-!
# Depth-first search

The work order is found from a stack that holds classes several times, and marks a class only when
it is taken. It is the order in which the recursive depth-first search enters the classes, so it has
no class twice and holds exactly the classes that the given ones lead to.
-/

namespace SchemaClasses

namespace ClassTable

variable {table : ClassTable}

def remaining (table : ClassTable) (visited : List ClassId) : Finset ClassId :=
  Finset.range table.length \ visited.toFinset

theorem remaining_cons_lt {visited : List ClassId} {id : ClassId} {c : ClassDescriptor}
    (hc : table.get? id = some c) (hnew : id ∉ visited) (below : List ClassId) :
    (table.remaining (id :: (below ++ visited))).card < (table.remaining visited).card := by
  have hlt : id < table.length := (List.getElem?_eq_some_iff.mp hc).choose
  refine Finset.card_lt_card ((Finset.ssubset_iff_of_subset ?_).mpr ⟨id, ?_, ?_⟩)
  · intro other
    simp only [remaining, Finset.mem_sdiff, List.mem_toFinset, List.mem_cons, List.mem_append]
    tauto
  · simp [remaining, hlt, hnew]
  · simp [remaining]

/-- The classes in the order in which a depth-first search enters them. The search goes to the given
ones in turn and from each to its references in turn, but not to those that are outside the table or
that it has visited. -/
def depthFirst (table : ClassTable) (visited : List ClassId) : List ClassId → List ClassId
  | [] => []
  | id :: rest =>
    match _hid : table.get? id with
    | none => depthFirst table visited rest
    | some c =>
      if id ∈ visited then depthFirst table visited rest
      else
        let below := depthFirst table (id :: visited) c.references
        id :: below ++ depthFirst table (id :: (below ++ visited)) rest
termination_by ids => ((table.remaining visited).card, ids.length)
decreasing_by
  · exact Prod.Lex.right _ (Nat.lt_succ_self _)
  · exact Prod.Lex.right _ (Nat.lt_succ_self _)
  · exact Prod.Lex.left _ _ (remaining_cons_lt _hid ‹_› [])
  · exact Prod.Lex.left _ _ (remaining_cons_lt _hid ‹_› _)

@[simp] theorem depthFirst_nil (visited : List ClassId) : table.depthFirst visited [] = [] := by
  rw [depthFirst]

section equations

variable {visited : List ClassId} {id : ClassId} {c : ClassDescriptor}

theorem depthFirst_outside (hid : table.get? id = none) (ids : List ClassId) :
    table.depthFirst visited (id :: ids) = table.depthFirst visited ids := by
  rw [depthFirst]
  split
  · rfl
  · simp_all

theorem depthFirst_visited (hvisited : id ∈ visited) (ids : List ClassId) :
    table.depthFirst visited (id :: ids) = table.depthFirst visited ids := by
  rw [depthFirst]
  split
  · rfl
  · rw [if_pos hvisited]

theorem depthFirst_new (hid : table.get? id = some c) (hnew : id ∉ visited) (ids : List ClassId) :
    table.depthFirst visited (id :: ids) =
      id :: (table.depthFirst (id :: visited) c.references ++
        table.depthFirst (id :: (table.depthFirst (id :: visited) c.references ++ visited))
          ids) := by
  rw [depthFirst]
  split
  · simp_all
  · rename_i other hother
    obtain rfl := Option.some.inj (hother.symm.trans hid)
    rw [if_neg hnew]
    rfl

end equations

/-- The sources are those of the visited classes. -/
def Marks (table : ClassTable) (visited : List ClassId) (sources : List String) : Prop :=
  ∀ id c, table.get? id = some c → (c.source ∈ sources ↔ id ∈ visited)

theorem Marks.nil (table : ClassTable) : table.Marks [] [] := fun _ _ _ => by simp

theorem Marks.cons (distinct : (table.map (·.source)).Nodup) {visited : List ClassId}
    {sources : List String} (marks : table.Marks visited sources) {n : ClassId}
    {k : ClassDescriptor} (hk : table.get? n = some k) :
    table.Marks (n :: visited) (k.source :: sources) := by
  intro id c hc
  rw [List.mem_cons, List.mem_cons, marks id c hc]
  refine or_congr_left ⟨fun hsource => eq_of_source distinct hc hk hsource, ?_⟩
  rintro rfl
  exact congrArg _ (Option.some.inj (hc.symm.trans hk))

theorem Marks.congr {visited others : List ClassId} {sources : List String}
    (marks : table.Marks visited sources) (hiff : ∀ id, id ∈ visited ↔ id ∈ others) :
    table.Marks others sources :=
  fun id c hc => (marks id c hc).trans (hiff id)

/-- The stack first gives what the search enters from its top part, and then goes on with the rest,
with enough of the bound left. -/
theorem visit_append (distinct : (table.map (·.source)).Nodup) (visited ids : List ClassId)
    (limit : Nat) (sources : List String) (rest : List ClassId)
    (marks : table.Marks visited sources)
    (hlimit : (ids ++ rest).length + table.unvisited sources ≤ limit) :
    ∃ limit' sources', table.Marks (table.depthFirst visited ids ++ visited) sources' ∧
      rest.length + table.unvisited sources' ≤ limit' ∧
      table.visit limit sources (ids ++ rest) =
        table.depthFirst visited ids ++ table.visit limit' sources' rest := by
  induction visited, ids using depthFirst.induct table generalizing limit sources rest with
  | case1 visited =>
    rw [depthFirst_nil]
    exact ⟨limit, sources, marks, hlimit, rfl⟩
  | case2 visited id ids hid ih =>
    rw [List.cons_append, List.length_cons] at hlimit
    obtain ⟨limit, rfl⟩ : ∃ l, limit = l + 1 := Nat.exists_eq_add_one.mpr (by omega)
    rw [depthFirst_outside hid, List.cons_append, visit]
    simp only [hid]
    exact ih limit sources rest marks (by omega)
  | case3 visited id ids c hid hvisited ih =>
    rw [List.cons_append, List.length_cons] at hlimit
    obtain ⟨limit, rfl⟩ : ∃ l, limit = l + 1 := Nat.exists_eq_add_one.mpr (by omega)
    rw [depthFirst_visited hvisited, List.cons_append, visit]
    simp only [hid, (marks id c hid).mpr hvisited, if_true]
    exact ih limit sources rest marks (by omega)
  | case4 visited id ids c hid hnew below ihbelow ih =>
    rw [List.cons_append, List.length_cons] at hlimit
    obtain ⟨limit, rfl⟩ : ∃ l, limit = l + 1 := Nat.exists_eq_add_one.mpr (by omega)
    have hsource : c.source ∉ sources := (marks id c hid).not.mpr hnew
    have hvisit := unvisited_visit (List.mem_of_getElem? hid) hsource
    obtain ⟨limit', sources', marks', hlimit', hbelow⟩ :=
      ihbelow limit (c.source :: sources) (ids ++ rest) (marks.cons distinct hid)
        (by rw [List.length_append]; omega)
    obtain ⟨limit'', sources'', marks'', hlimit'', hafter⟩ :=
      ih limit' sources' rest (marks'.congr fun n => by simp [below, or_left_comm]) hlimit'
    refine ⟨limit'', sources'', marks''.congr fun n => ?_, hlimit'', ?_⟩
    · rw [depthFirst_new hid hnew]
      simp only [below, List.mem_append, List.mem_cons]
      tauto
    · rw [depthFirst_new hid hnew, List.cons_append, visit]
      simp only [hid, hsource, if_false]
      rw [hbelow, hafter, List.cons_append, List.append_assoc]

/-- The work order is the order in which the search enters the classes. -/
theorem workOrder_eq_depthFirst (distinct : (table.map (·.source)).Nodup) (seeds : List ClassId) :
    table.workOrder seeds = table.depthFirst [] seeds := by
  have hlimit : (seeds ++ []).length + table.unvisited [] ≤
      seeds.length + (table.flatMap (·.references)).length := by
    rw [List.append_nil, unvisited_nil]
  obtain ⟨limit, sources, -, -, horder⟩ :=
    visit_append distinct [] seeds _ [] [] (Marks.nil table) hlimit
  rwa [visit_nil, List.append_nil, List.append_nil] at horder

/-- The search enters classes of the table that it has not visited and that it is led to. -/
theorem depthFirst_sound (visited ids : List ClassId) :
    ∀ n ∈ table.depthFirst visited ids, n ∉ visited ∧ (∃ k, table.get? n = some k) ∧
      ∃ start ∈ ids, Relation.ReflTransGen table.Refers start n := by
  induction visited, ids using depthFirst.induct table with
  | case1 visited => simp
  | case2 visited id ids hid ih =>
    rw [depthFirst_outside hid]
    intro n hn
    obtain ⟨hnew, hk, start, hstart, hpath⟩ := ih n hn
    exact ⟨hnew, hk, start, List.mem_cons_of_mem _ hstart, hpath⟩
  | case3 visited id ids c hid hvisited ih =>
    rw [depthFirst_visited hvisited]
    intro n hn
    obtain ⟨hnew, hk, start, hstart, hpath⟩ := ih n hn
    exact ⟨hnew, hk, start, List.mem_cons_of_mem _ hstart, hpath⟩
  | case4 visited id ids c hid hnew below ihbelow ih =>
    rw [depthFirst_new hid hnew]
    intro n hn
    rcases List.mem_cons.mp hn with rfl | hn
    · exact ⟨hnew, ⟨c, hid⟩, n, List.mem_cons_self, .refl⟩
    rcases List.mem_append.mp hn with hn | hn
    · obtain ⟨hnew', hk, start, hstart, hpath⟩ := ihbelow n hn
      exact ⟨fun h => hnew' (List.mem_cons_of_mem _ h), hk, id, List.mem_cons_self,
        .head ⟨c, hid, hstart⟩ hpath⟩
    · obtain ⟨hnew', hk, start, hstart, hpath⟩ := ih n hn
      exact ⟨fun h => hnew' (List.mem_cons_of_mem _ (List.mem_append_right _ h)), hk, start,
        List.mem_cons_of_mem _ hstart, hpath⟩

theorem depthFirst_nodup (visited ids : List ClassId) :
    (table.depthFirst visited ids).Nodup := by
  induction visited, ids using depthFirst.induct table with
  | case1 visited => simp
  | case2 visited id ids hid ih => rwa [depthFirst_outside hid]
  | case3 visited id ids c hid hvisited ih => rwa [depthFirst_visited hvisited]
  | case4 visited id ids c hid hnew below ihbelow ih =>
    have hsound {n : ClassId} (hn : n ∈ table.depthFirst (id :: (below ++ visited)) ids) :
        n ≠ id ∧ n ∉ below := by
      have hn' := (depthFirst_sound _ _ n hn).1
      simp only [List.mem_cons, List.mem_append, not_or] at hn'
      exact ⟨hn'.1, hn'.2.1⟩
    rw [depthFirst_new hid hnew, List.nodup_cons, List.mem_append, not_or]
    refine ⟨⟨fun h => ?_, fun h => (hsound h).1 rfl⟩, ihbelow.append ih fun n hn hafter => ?_⟩
    · exact (depthFirst_sound _ _ id h).1 List.mem_cons_self
    · exact (hsound hafter).2 hn

/-- The given classes, and those that an entered class refers to, are visited or entered. -/
theorem depthFirst_covers (visited ids : List ClassId) {n : ClassId} {k : ClassDescriptor}
    (hk : table.get? n = some k)
    (hn : n ∈ ids ∨ ∃ m ∈ table.depthFirst visited ids, table.Refers m n) :
    n ∈ visited ∨ n ∈ table.depthFirst visited ids := by
  induction visited, ids using depthFirst.induct table with
  | case1 visited => simp at hn
  | case2 visited id ids hid ih =>
    rw [depthFirst_outside hid] at hn ⊢
    refine ih (hn.imp_left fun h => (List.mem_cons.mp h).resolve_left ?_)
    rintro rfl
    rw [hk] at hid
    cases hid
  | case3 visited id ids c hid hvisited ih =>
    rw [depthFirst_visited hvisited] at hn ⊢
    rcases hn with hn | hn
    · rcases List.mem_cons.mp hn with rfl | hn
      · exact .inl hvisited
      · exact ih (.inl hn)
    · exact ih (.inr hn)
  | case4 visited id ids c hid hnew below ihbelow ih =>
    rw [depthFirst_new hid hnew] at hn ⊢
    simp only [below, List.mem_cons, List.mem_append] at hn ih ihbelow ⊢
    rcases hn with (rfl | hn) | ⟨m, rfl | hm | hm, href⟩
    · exact .inr (.inl rfl)
    · have := ih (.inl hn)
      tauto
    · obtain ⟨other, hother, hmem⟩ := href
      obtain rfl := Option.some.inj (hid.symm.trans hother)
      have := ihbelow (.inl hmem)
      tauto
    · have := ihbelow (.inr ⟨m, hm, href⟩)
      tauto
    · have := ih (.inr ⟨m, hm, href⟩)
      tauto

/-- The search enters exactly the classes that the given ones lead to. -/
theorem mem_depthFirst_iff {ids : List ClassId} {n : ClassId} :
    n ∈ table.depthFirst [] ids ↔ (∃ k, table.get? n = some k) ∧
      ∃ start ∈ ids, Relation.ReflTransGen table.Refers start n := by
  refine ⟨fun hn => (depthFirst_sound [] ids n hn).2, ?_⟩
  rintro ⟨⟨k, hk⟩, start, hstart, hpath⟩
  induction hpath generalizing k with
  | refl => exact (depthFirst_covers [] ids hk (.inl hstart)).resolve_left List.not_mem_nil
  | tail _ href ih =>
    obtain ⟨m, hm, -⟩ := id href
    exact (depthFirst_covers [] ids hk (.inr ⟨_, ih m hm, href⟩)).resolve_left List.not_mem_nil

end ClassTable

end SchemaClasses
