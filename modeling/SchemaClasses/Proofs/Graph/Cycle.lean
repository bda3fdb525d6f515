import Mathlib.Data.Fintype.Pigeonhole
import Mathlib.Data.Nat.SuccPred
import Mathlib.Data.Set.Finite.List
import Mathlib.Logic.Relation
import Mathlib.Order.SuccPred.Relation

/-!
# Nodes that lead to cycles

In a finite graph, going on from a node to what it depends on never has to come to an end exactly
when the node leads to a cycle. The first is what an induction over the graph can use, the second is
what one means.
-/

namespace SchemaClasses.Graph

variable {α : Type} {edges : List (α × List α)}

/-- One node depends on another of the same graph. -/
def Leads (edges : List (α × List α)) (a b : α) : Prop :=
  (∃ deps, (a, deps) ∈ edges ∧ b ∈ deps) ∧ b ≠ a ∧ b ∈ edges.map Prod.fst

/-- Going on from a node to what it depends on never has to come to an end. -/
def Endless (edges : List (α × List α)) (node : α) : Prop :=
  ∃ on : α → Prop, on node ∧ ∀ a, on a → ∃ b, Leads edges a b ∧ on b

/-- A cycle can be reached from a node. It has two nodes or more, since no node leads to itself. -/
def LeadsToCycle (edges : List (α × List α)) (node : α) : Prop :=
  ∃ m, Relation.ReflTransGen (Leads edges) node m ∧ Relation.TransGen (Leads edges) m m

/-- Among infinitely many nodes, one after another, two are the same. -/
theorem leadsToCycle_of_seq (path : ℕ → α) (h : ∀ i, Leads edges (path i) (path (i + 1))) :
    LeadsToCycle edges (path 0) := by
  have hmem (i : ℕ) : path (i + 1) ∈ edges.map Prod.fst := (h i).2.2
  have hfinite : Finite {a // a ∈ edges.map Prod.fst} := List.finite_toSet _
  obtain ⟨i, j, hne, heq⟩ :=
    Finite.exists_ne_map_eq_of_infinite fun i : ℕ =>
      (⟨path (i + 1), hmem i⟩ : {a // a ∈ edges.map Prod.fst})
  have heq : path (i + 1) = path (j + 1) := congrArg Subtype.val heq
  have closes {i j : ℕ} (hlt : i < j) (heq : path (i + 1) = path (j + 1)) :
      LeadsToCycle edges (path 0) := by
    have hto : Relation.ReflTransGen (Leads edges) (path 0) (path (i + 1)) :=
      (reflTransGen_of_succ_of_le (fun a b => Leads edges (path a) (path b))
        (fun k _ => h k) (Nat.zero_le (i + 1))).lift path (fun a b hab => hab)
    have hround : Relation.TransGen (Leads edges) (path (i + 1)) (path (j + 1)) :=
      (transGen_of_succ_of_lt (fun a b => Leads edges (path a) (path b))
        (fun k _ => h k) (Nat.succ_lt_succ hlt)).lift path (fun a b hab => hab)
    exact ⟨path (i + 1), hto, heq ▸ hround⟩
  rcases Nat.lt_or_gt_of_ne hne with hlt | hlt
  · exact closes hlt heq
  · exact closes hlt heq.symm

theorem endless_iff {node : α} : Endless edges node ↔ LeadsToCycle edges node := by
  constructor
  · rintro ⟨on, hon, hnext⟩
    choose next hleads hstays using hnext
    let path (i : ℕ) : {a // on a} := (fun a => ⟨next a.1 a.2, hstays a.1 a.2⟩)^[i] ⟨node, hon⟩
    refine leadsToCycle_of_seq (fun i => (path i).1) fun i => ?_
    have hsucc : path (i + 1) = ⟨next (path i).1 (path i).2, hstays (path i).1 (path i).2⟩ :=
      Function.iterate_succ_apply' _ i _
    simp only [hsucc]
    exact hleads _ _
  · rintro ⟨m, hto, hround⟩
    refine ⟨fun a => Relation.ReflTransGen (Leads edges) a m, hto, fun a ha => ?_⟩
    rcases ha.cases_head with rfl | ⟨b, hab, hb⟩
    · obtain ⟨b, hab, hb⟩ := Relation.TransGen.head'_iff.mp hround
      exact ⟨b, hab, hb⟩
    · exact ⟨b, hab, hb⟩

end SchemaClasses.Graph
