import Mathlib.Data.List.Nodup
import Mathlib.Data.List.Perm.Subperm
import Mathlib.Logic.Relation
import SchemaClasses.Graph.Reachable

/-!
# What is found from a node

Exploring a graph finds every node at most once, and only nodes to which every property carries
over that the edges preserve. The queue runs empty before the bound is reached, because every step
takes a node from it and no node gets into it twice. So what is found is closed under the edges, and
it is exactly what paths of any length lead to.
-/

namespace SchemaClasses.Graph

variable {α : Type} [DecidableEq α] {targets : α → List α} {found queue : List α} {limit : Nat}

theorem mem_fresh {targets : List α} {node : α} :
    node ∈ fresh found targets ↔ node ∈ targets ∧ node ∉ found := by
  rw [fresh, List.mem_filter, Ordered.mem_ofList, decide_eq_true_eq]

theorem exploreFrom_nodup (h : found.Nodup) : (exploreFrom targets limit found queue).Nodup := by
  induction limit generalizing found queue with
  | zero => exact h
  | succ limit ih =>
    cases queue with
    | nil => exact h
    | cons node queue =>
      refine ih ?_
      rw [List.nodup_append]
      refine ⟨h, (Ordered.nodup_ofList _).filter _, ?_⟩
      rintro a ha _ hb rfl
      exact (mem_fresh.mp hb).2 ha

/-- What holds of the nodes to start from and passes along edges holds of all nodes found. -/
theorem forall_mem_exploreFrom {P : α → Prop} (pass : ∀ a, P a → ∀ b ∈ targets a, P b)
    (hfound : ∀ a ∈ found, P a) (hqueue : ∀ a ∈ queue, P a) :
    ∀ a ∈ exploreFrom targets limit found queue, P a := by
  induction limit generalizing found queue with
  | zero => exact hfound
  | succ limit ih =>
    cases queue with
    | nil => exact hfound
    | cons node queue =>
      have hnew : ∀ b ∈ fresh found (targets node), P b := fun b hb =>
        pass node (hqueue node List.mem_cons_self) b (mem_fresh.mp hb).1
      refine ih ?_ ?_
      · intro a ha
        exact (List.mem_append.mp ha).elim (hfound a) (hnew a)
      · intro a ha
        exact (List.mem_append.mp ha).elim (fun h => hqueue a (List.mem_cons_of_mem _ h)) (hnew a)

theorem found_subset_exploreFrom : found ⊆ exploreFrom targets limit found queue := by
  induction limit generalizing found queue with
  | zero => exact List.Subset.refl found
  | succ limit ih =>
    cases queue with
    | nil => exact List.Subset.refl found
    | cons node queue =>
      intro a ha
      apply ih
      exact List.mem_append_left _ ha

/-- The new nodes among the targets of one node are no longer left to be found. -/
theorem length_fresh_add_le {left : List α} {node : α}
    (hleft : ∀ b ∈ targets node, b ∈ found ∨ b ∈ left) :
    (fresh found (targets node)).length +
        (left.filter (· ∉ found ++ fresh found (targets node))).length ≤
      (left.filter (· ∉ found)).length := by
  have hnodup : (fresh found (targets node)).Nodup := (Ordered.nodup_ofList _).filter _
  have hsubset : fresh found (targets node) ⊆
      (left.filter (· ∉ found)).filter (· ∈ fresh found (targets node)) := by
    intro b hb
    have hnew := mem_fresh.mp hb
    have hmem := (hleft b hnew.1).resolve_left hnew.2
    simp [hmem, hnew.2, hb]
  have hlength := (hnodup.subperm hsubset).length_le
  have hrest : left.filter (· ∉ found ++ fresh found (targets node)) =
      (left.filter (· ∉ found)).filter (· ∉ fresh found (targets node)) := by
    rw [List.filter_filter]
    apply List.filter_congr
    intro b _
    simp [Bool.and_comm]
  have hsplit := List.length_eq_length_filter_add (l := left.filter (· ∉ found))
    (fun b => decide (b ∈ fresh found (targets node)))
  rw [hrest]
  simp only [decide_not] at hlength hsplit ⊢
  omega

/-- When the bound allows for the queue and for all nodes that are left to be found, everything
that a found node leads to is found. The nodes whose targets may be missing are in the queue. -/
theorem exploreFrom_closed (left : List α)
    (hleft : ∀ a, ∀ b ∈ targets a, b ∈ found ∨ b ∈ left) (hqueue : ∀ a ∈ queue, a ∈ found)
    (hclosed : ∀ a ∈ found, a ∉ queue → ∀ b ∈ targets a, b ∈ found)
    (hlimit : queue.length + (left.filter (· ∉ found)).length ≤ limit) :
    ∀ a ∈ exploreFrom targets limit found queue, ∀ b ∈ targets a,
      b ∈ exploreFrom targets limit found queue := by
  induction limit generalizing found queue with
  | zero =>
    have hempty : queue = [] := List.length_eq_zero_iff.mp (by omega)
    subst hempty
    intro a ha b hb
    exact hclosed a ha List.not_mem_nil b hb
  | succ limit ih =>
    cases queue with
    | nil =>
      intro a ha b hb
      exact hclosed a ha List.not_mem_nil b hb
    | cons node queue =>
      have hfresh := length_fresh_add_le (hleft node)
      simp only [List.length_cons] at hlimit
      rw [exploreFrom]
      apply ih
      · intro a b hb
        exact (hleft a b hb).imp_left (List.mem_append_left _)
      · intro a ha
        rcases List.mem_append.mp ha with ha | ha
        · exact List.mem_append_left _ (hqueue a (List.mem_cons_of_mem _ ha))
        · exact List.mem_append_right _ ha
      · intro a ha hout b hb
        rw [List.mem_append, not_or] at hout
        have hfound : a ∈ found := (List.mem_append.mp ha).resolve_right hout.2
        by_cases heq : a = node
        · subst heq
          by_cases hbfound : b ∈ found
          · exact List.mem_append_left _ hbfound
          · exact List.mem_append_right _ (mem_fresh.mpr ⟨hb, hbfound⟩)
        · have hbefore : a ∉ node :: queue := by simp [heq, hout.1]
          exact List.mem_append_left _ (hclosed a hfound hbefore b hb)
      · rw [List.length_append]
        omega

variable {edges : List (List Nat)} {start : Nat}

theorem reachable_nodup (edges : List (List Nat)) (start : Nat) :
    (reachable edges start).Nodup :=
  exploreFrom_nodup (List.nodup_singleton start)

theorem reachable_lt {size : Nat} (inRange : ∀ targets ∈ edges, ∀ node ∈ targets, node < size)
    (hstart : start < size) : ∀ node ∈ reachable edges start, node < size := by
  refine forall_mem_exploreFrom (fun a _ b hb => ?_) (by simpa using hstart)
    (by simpa using hstart)
  cases hget : edges[a]? with
  | none => simp [hget] at hb
  | some targets =>
    rw [hget, Option.getD_some] at hb
    exact inRange targets (List.mem_of_getElem? hget) b hb

/-- One node of a graph on numbers leads to another. -/
def Edge (edges : List (List Nat)) (a b : Nat) : Prop := b ∈ (edges[a]?).getD []

theorem Edge.mem_flatten {a b : Nat} (h : Edge edges a b) : b ∈ edges.flatten := by
  unfold Edge at h
  cases hget : edges[a]? with
  | none => simp [hget] at h
  | some targets =>
    rw [hget, Option.getD_some] at h
    exact List.mem_flatten_of_mem (List.mem_of_getElem? hget) h

theorem start_mem_reachable (edges : List (List Nat)) (start : Nat) :
    start ∈ reachable edges start :=
  found_subset_exploreFrom (List.mem_singleton_self start)

theorem reachable_closed {a b : Nat} (ha : a ∈ reachable edges start) (h : Edge edges a b) :
    b ∈ reachable edges start := by
  have hbound : [start].length + (edges.flatten.filter (· ∉ [start])).length ≤
      1 + edges.flatten.length := by
    have := List.length_filter_le (fun b => decide (b ∉ [start])) edges.flatten
    simpa using this
  refine exploreFrom_closed edges.flatten ?_ (by simp) ?_ hbound a ha b h
  · intro a b hb
    exact .inr (Edge.mem_flatten hb)
  · intro a ha hout
    exact absurd ha hout

/-- What is found from a node is what paths lead to. -/
theorem mem_reachable {n : Nat} :
    n ∈ reachable edges start ↔ Relation.ReflTransGen (Edge edges) start n := by
  constructor
  · intro h
    refine forall_mem_exploreFrom (P := Relation.ReflTransGen (Edge edges) start) ?_ ?_ ?_ n h
    · intro a ha b hb
      exact ha.tail hb
    · simp [Relation.ReflTransGen.refl]
    · simp [Relation.ReflTransGen.refl]
  · intro h
    induction h with
    | refl => exact start_mem_reachable edges start
    | tail _ hedge ih => exact reachable_closed ih hedge

end SchemaClasses.Graph
