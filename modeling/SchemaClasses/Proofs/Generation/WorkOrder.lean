import SchemaClasses.Generation

/-!
# The work order

The classes to generate code for are found from a stack, which takes a class that has been visited
before without going on from it. Every class puts its references on the stack once, so the bound on
what is taken is never what ends the search, and the work order is closed under references.
-/

namespace SchemaClasses

namespace ClassTable

variable {table : ClassTable} {visited : List String}

/-- The references that lead on from a class, if it has not been visited. -/
def ahead (visited : List String) (c : ClassDescriptor) : List ClassId :=
  if c.source ∈ visited then [] else c.references

/-- How many references lead on from the classes that have not been visited. -/
def unvisited (table : ClassTable) (visited : List String) : Nat :=
  (table.flatMap (ahead visited)).length

theorem ahead_cons_le (visited : List String) (source : String) (c : ClassDescriptor) :
    (ahead (source :: visited) c).length ≤ (ahead visited c).length := by
  unfold ahead
  split <;> split <;> simp_all

theorem unvisited_cons_le (table : ClassTable) (visited : List String) (source : String) :
    table.unvisited (source :: visited) ≤ table.unvisited visited := by
  induction table with
  | nil => exact Nat.le_refl _
  | cons c rest ih =>
    have hfirst := ahead_cons_le visited source c
    simp only [unvisited, List.flatMap_cons, List.length_append] at ih ⊢
    omega

/-- A visit takes the references of the class from those that lie ahead. -/
theorem unvisited_visit {c : ClassDescriptor} (hc : c ∈ table) (hnew : c.source ∉ visited) :
    c.references.length + table.unvisited (c.source :: visited) ≤ table.unvisited visited := by
  induction table with
  | nil => cases hc
  | cons first rest ih =>
    have hrest := unvisited_cons_le rest visited c.source
    have hfirst := ahead_cons_le visited c.source first
    simp only [unvisited, List.flatMap_cons, List.length_append] at ih hrest ⊢
    rcases List.mem_cons.mp hc with rfl | hc
    · have hbefore : (ahead visited c).length = c.references.length := by
        rw [ahead, if_neg hnew]
      have hafter : (ahead (c.source :: visited) c).length = 0 := by
        rw [ahead, if_pos List.mem_cons_self, List.length_nil]
      omega
    · have := ih hc
      omega

theorem unvisited_nil (table : ClassTable) :
    table.unvisited [] = (table.flatMap (·.references)).length := by
  have hahead : ahead [] = (·.references) := by
    funext c
    rw [ahead, if_neg List.not_mem_nil]
  rw [unvisited, hahead]

@[simp] theorem visit_nil (table : ClassTable) (limit : Nat) (visited : List String) :
    table.visit limit visited [] = [] := by
  cases limit <;> simp [visit]

/-- Some class of an order has a source. -/
def Covers (table : ClassTable) (order : List ClassId) (source : String) : Prop :=
  ∃ n ∈ order, ∃ c, table.get? n = some c ∧ c.source = source

theorem Covers.cons {order : List ClassId} {source : String} (h : table.Covers order source)
    (first : ClassId) : table.Covers (first :: order) source := by
  obtain ⟨n, hn, c, hc, hsource⟩ := h
  exact ⟨n, List.mem_cons_of_mem _ hn, c, hc, hsource⟩

theorem Covers.take {order : List ClassId} {source : String} {first : ClassId}
    {k : ClassDescriptor} (hfirst : table.get? first = some k)
    (h : source ∈ k.source :: visited ∨ table.Covers order source) :
    source ∈ visited ∨ table.Covers (first :: order) source := by
  rcases h with hmem | hcovers
  · rcases List.mem_cons.mp hmem with rfl | hmem
    · exact .inr ⟨first, List.mem_cons_self, k, hfirst, rfl⟩
    · exact .inl hmem
  · exact .inr (hcovers.cons first)

/-- What is on the stack, and what a class found from it refers to, has been visited or is found. -/
theorem visit_covers (limit : Nat) (visited : List String) (stack : List ClassId)
    (hlimit : stack.length + table.unvisited visited ≤ limit) {id : ClassId}
    {c : ClassDescriptor} (hc : table.get? id = some c)
    (hid : id ∈ stack ∨
      ∃ n ∈ table.visit limit visited stack, ∃ k, table.get? n = some k ∧ id ∈ k.references) :
    c.source ∈ visited ∨ table.Covers (table.visit limit visited stack) c.source := by
  induction limit generalizing visited stack with
  | zero =>
    obtain rfl : stack = [] := List.length_eq_zero_iff.mp (by omega)
    simp [visit] at hid
  | succ limit ih =>
    match stack with
    | [] => simp [visit] at hid
    | first :: stack =>
      rw [List.length_cons] at hlimit
      rw [visit] at hid ⊢
      cases hfirst : table.get? first with
      | none =>
        simp only [hfirst, List.mem_cons] at hid ⊢
        refine ih visited stack (by omega) (hid.imp_left fun h => h.resolve_left ?_)
        rintro rfl
        rw [hc] at hfirst
        cases hfirst
      | some k =>
        simp only [hfirst] at hid ⊢
        -- A class visited before is only taken off; a new one adds its references to the stack,
        -- and the bound still suffices since they no longer lie ahead.
        split
        · rename_i hvisited
          simp only [hvisited, if_true, List.mem_cons] at hid
          rcases hid with (rfl | hid) | hid
          · obtain rfl := Option.some.inj (hc.symm.trans hfirst)
            exact .inl hvisited
          · exact ih visited stack (by omega) (.inl hid)
          · exact ih visited stack (by omega) (.inr hid)
        · rename_i hnew
          simp only [hnew, if_false, List.mem_cons] at hid
          have hvisit := unvisited_visit (List.mem_of_getElem? hfirst) hnew
          have ih := ih (k.source :: visited) (k.references ++ stack)
            (by rw [List.length_append]; omega)
          refine Covers.take hfirst ?_
          rcases hid with (rfl | hid) | ⟨n, rfl | hn, m, hm, hid⟩
          · obtain rfl := Option.some.inj (hc.symm.trans hfirst)
            exact .inl List.mem_cons_self
          · exact ih (.inl (List.mem_append_right _ hid))
          · obtain rfl := Option.some.inj (hm.symm.trans hfirst)
            exact ih (.inl (List.mem_append_left _ hid))
          · exact ih (.inr ⟨n, hn, m, hm, hid⟩)

theorem eq_of_source (distinct : (table.map (·.source)).Nodup) {n id : ClassId}
    {k c : ClassDescriptor} (hk : table.get? n = some k) (hc : table.get? id = some c)
    (hsource : k.source = c.source) : n = id := by
  have hk : table[n]? = some k := hk
  have hc : table[id]? = some c := hc
  have hlt : n < (table.map (·.source)).length := by
    rw [List.length_map]
    exact (List.getElem?_eq_some_iff.mp hk).choose
  refine (List.getElem?_inj hlt distinct).mp ?_
  rw [List.getElem?_map, List.getElem?_map, hk, hc, Option.map_some, Option.map_some, hsource]

theorem workOrder_closed (distinct : (table.map (·.source)).Nodup) {seeds : List ClassId}
    {n id : ClassId} {k c : ClassDescriptor} (hn : n ∈ table.workOrder seeds)
    (hk : table.get? n = some k) (hid : id ∈ k.references) (hc : table.get? id = some c) :
    id ∈ table.workOrder seeds := by
  have hcovers := visit_covers _ [] seeds
    (Nat.add_le_add_left (Nat.le_of_eq (table.unvisited_nil)) _) hc (.inr ⟨n, hn, k, hk, hid⟩)
  obtain ⟨m, hm, other, hother, hsource⟩ := hcovers.resolve_left List.not_mem_nil
  exact eq_of_source distinct hother hc hsource ▸ hm

end ClassTable

end SchemaClasses
