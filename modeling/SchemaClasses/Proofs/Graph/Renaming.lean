import Mathlib.Algebra.BigOperators.Group.Finset.Basic
import SchemaClasses.Graph.Reachable
import SchemaClasses.Graph.TopologicalOrder

/-!
# Graphs under other names

Sets in order of insertion and the orders of a graph only compare nodes. When the nodes are given
other names, each node its own, the results are those from before under the new names. A graph on
numbers has its edges listed by node, so for it the new names are a permutation of the numbers.
-/

namespace SchemaClasses

namespace Ordered

variable {α β : Type} [DecidableEq α] [DecidableEq β] {f : α → β}

theorem insert_map (hf : Function.Injective f) (members : List α) (x : α) :
    insert (members.map f) (f x) = (insert members x).map f := by
  unfold insert
  simp only [List.mem_map_of_injective hf]
  split <;> simp

theorem union_map (hf : Function.Injective f) (members new : List α) :
    union (members.map f) (new.map f) = (union members new).map f := by
  unfold union
  induction new generalizing members with
  | nil => rfl
  | cons x rest ih =>
    rw [List.map_cons, List.foldl_cons, List.foldl_cons, insert_map hf]
    exact ih _

theorem ofList_map (hf : Function.Injective f) (xs : List α) :
    ofList (xs.map f) = (ofList xs).map f :=
  union_map hf [] xs

end Ordered

namespace Graph

section

variable {α β : Type} {f : α → β} {p : α → Bool} {q : β → Bool}

theorem filter_map_of_eq (h : ∀ x, q (f x) = p x) (xs : List α) :
    (xs.map f).filter q = (xs.filter p).map f := by
  have hcomp : q ∘ f = p := funext h
  rw [List.filter_map, hcomp]

variable [DecidableEq α] [DecidableEq β]

theorem fresh_map (hf : Function.Injective f) (found targets : List α) :
    fresh (found.map f) (targets.map f) = (fresh found targets).map f := by
  unfold fresh
  rw [Ordered.ofList_map hf]
  apply filter_map_of_eq
  intro x
  simp only [List.mem_map_of_injective hf]

theorem exploreFrom_map (hf : Function.Injective f) {targets : α → List α}
    {renamed : β → List β} (htargets : ∀ a, renamed (f a) = (targets a).map f) (limit : Nat)
    (found queue : List α) :
    exploreFrom renamed limit (found.map f) (queue.map f) =
      (exploreFrom targets limit found queue).map f := by
  induction limit generalizing found queue with
  | zero => rfl
  | succ limit ih =>
    cases queue with
    | nil => rfl
    | cons node queue =>
      have hfresh := fresh_map hf found (targets node)
      rw [List.map_cons, exploreFrom, exploreFrom, htargets, hfresh]
      have hnext := ih (found ++ fresh found (targets node)) (queue ++ fresh found (targets node))
      simpa only [List.map_append] using hnext

end

section

variable {σ : Equiv.Perm Nat}

/-- A list whose entries are those of another list, at other places and changed by a function, has
as many. -/
theorem lt_length_iff_of_getElem? {α β : Type} {xs : List α} {ys : List β} {g : α → β}
    (h : ∀ i, ys[σ i]? = (xs[i]?).map g) (i : Nat) : i < xs.length ↔ σ i < ys.length := by
  rw [← not_iff_not, Nat.not_lt, Nat.not_lt, ← List.getElem?_eq_none_iff,
    ← List.getElem?_eq_none_iff, h, Option.map_eq_none_iff]

theorem length_eq_of_getElem? {α β : Type} {xs : List α} {ys : List β} {g : α → β}
    (h : ∀ i, ys[σ i]? = (xs[i]?).map g) : ys.length = xs.length := by
  have himage : (Finset.range xs.length).map σ.toEmbedding = Finset.range ys.length := by
    ext i
    have hi := lt_length_iff_of_getElem? h (σ.symm i)
    rw [Equiv.apply_symm_apply] at hi
    rw [Finset.mem_map_equiv, Finset.mem_range, Finset.mem_range, hi]
  have hcard := congrArg Finset.card himage
  rw [Finset.card_map, Finset.card_range, Finset.card_range] at hcard
  exact hcard.symm

theorem length_flatten (edges : List (List Nat)) :
    edges.flatten.length = ∑ i ∈ Finset.range edges.length, ((edges[i]?).getD []).length := by
  induction edges with
  | nil => rfl
  | cons targets rest ih =>
    rw [List.flatten_cons, List.length_append, ih, List.length_cons, Finset.sum_range_succ']
    simp only [List.getElem?_cons_succ, List.getElem?_cons_zero, Option.getD_some]
    omega

variable {edges renamed : List (List Nat)}

theorem length_flatten_eq (h : ∀ i, renamed[σ i]? = (edges[i]?).map (List.map σ)) :
    renamed.flatten.length = edges.flatten.length := by
  rw [length_flatten, length_flatten]
  symm
  apply Finset.sum_equiv σ
  · intro i
    rw [Finset.mem_range, Finset.mem_range, lt_length_iff_of_getElem? h]
  · intro i _
    rw [h]
    cases edges[i]? <;> simp

theorem reachable_map (h : ∀ i, renamed[σ i]? = (edges[i]?).map (List.map σ)) (start : Nat) :
    reachable renamed (σ start) = (reachable edges start).map σ := by
  have htargets (node : Nat) :
      (renamed[σ node]?).getD [] = ((edges[node]?).getD []).map σ := by
    rw [h]
    cases edges[node]? <;> rfl
  unfold reachable
  rw [length_flatten_eq h]
  exact exploreFrom_map σ.injective htargets _ [start] [start]

end

section

variable {α β : Type} {f : α → β}

def rename (f : α → β) (edges : List (α × List α)) : List (β × List β) :=
  edges.map fun edge => (f edge.1, edge.2.map f)

def Waiting.rename (f : α → β) (waiting : Waiting α) : Waiting β :=
  ⟨Graph.rename f waiting.remaining, waiting.ready.map f⟩

theorem filter_rename {p : α × List α → Bool} {q : β × List β → Bool}
    (h : ∀ edge : α × List α, q (f edge.1, edge.2.map f) = p edge) (edges : List (α × List α)) :
    (rename f edges).filter q = rename f (edges.filter p) :=
  filter_map_of_eq h edges

theorem map_fst_rename (edges : List (α × List α)) :
    (rename f edges).map Prod.fst = (edges.map Prod.fst).map f := by
  simp [rename]

namespace Waiting

theorem ready_rename (edges : List (α × List α)) :
    (((Graph.rename f edges).filter fun edge => edge.2.isEmpty).map Prod.fst).reverse =
      ((edges.filter fun edge => edge.2.isEmpty).map Prod.fst).reverse.map f := by
  have hfilter : (Graph.rename f edges).filter (fun edge => edge.2.isEmpty) =
      Graph.rename f (edges.filter fun edge => edge.2.isEmpty) := by
    apply filter_rename
    intro edge
    exact List.isEmpty_map
  rw [hfilter, map_fst_rename, List.map_reverse]

theorem next?_rename (waiting : Waiting α) : (waiting.rename f).next? = waiting.next?.map f := by
  unfold next? rename Graph.rename
  cases waiting.ready with
  | nil => simp [List.head?_map, Function.comp_def]
  | cons node rest => rfl

variable [DecidableEq α] [DecidableEq β]

theorem start_rename (hf : Function.Injective f) (edges : List (α × List α)) :
    start (Graph.rename f edges) = (start edges).rename f := by
  have hnode (a : α) : ((Graph.rename f edges).any fun edge => edge.1 = f a) =
      edges.any fun edge => edge.1 = a := by
    simp [Graph.rename, List.any_map, Function.comp_def, hf.eq_iff]
  have hremaining : (start (Graph.rename f edges)).remaining =
      Graph.rename f (start edges).remaining := by
    simp only [start, Graph.rename, List.map_map]
    apply List.map_congr_left
    intro edge _
    simp only [Function.comp_apply, Prod.mk.injEq, true_and]
    apply filter_map_of_eq
    intro d
    have hd := hnode d
    simp only [Graph.rename] at hd
    simp [hf.eq_iff, hd]
  have hready : (start (Graph.rename f edges)).ready = (start edges).ready.map f := by
    have hof := ready_rename (f := f) (start edges).remaining
    rw [← hremaining] at hof
    exact hof
  calc start (Graph.rename f edges)
      = ⟨(start (Graph.rename f edges)).remaining, (start (Graph.rename f edges)).ready⟩ := rfl
    _ = (start edges).rename f := by rw [hremaining, hready]; rfl

/-- A node after another has been taken: what it still waits for, and whether it waited for that. -/
def strike (node : α) (edge : α × List α) : α × List α × Bool :=
  (edge.1, edge.2.filter (· ≠ node), edge.2.contains node)

theorem take_eq (waiting : Waiting α) (node : α) :
    waiting.take node =
      let left := (waiting.remaining.filter fun edge => edge.1 ≠ node).map (strike node)
      { remaining := left.map fun edge => (edge.1, edge.2.1)
        ready := ((left.filter fun edge => edge.2.2 && edge.2.1.isEmpty).map (·.1)).reverse ++
          waiting.ready.drop 1 } := rfl

theorem strike_rename (hf : Function.Injective f) (node : α) (edge : α × List α) :
    strike (f node) (f edge.1, edge.2.map f) =
      (f edge.1, (strike node edge).2.1.map f, (strike node edge).2.2) := by
  have hleft : (edge.2.map f).filter (· ≠ f node) = (edge.2.filter (· ≠ node)).map f := by
    apply filter_map_of_eq
    intro d
    simp [hf.eq_iff]
  have hcontains : (edge.2.map f).contains (f node) = edge.2.contains node := by
    simp [List.contains_eq_mem, List.mem_map_of_injective hf]
  simp only [strike, hleft, hcontains]

theorem take_rename (hf : Function.Injective f) (waiting : Waiting α) (node : α) :
    (waiting.rename f).take (f node) = (waiting.take node).rename f := by
  have hothers : (Graph.rename f waiting.remaining).filter (fun edge => edge.1 ≠ f node) =
      Graph.rename f (waiting.remaining.filter fun edge => edge.1 ≠ node) := by
    apply filter_rename
    intro edge
    simp [hf.eq_iff]
  have hleft (edges : List (α × List α)) : (Graph.rename f edges).map (strike (f node)) =
      (edges.map (strike node)).map fun edge => (f edge.1, edge.2.1.map f, edge.2.2) := by
    simp only [Graph.rename, List.map_map]
    apply List.map_congr_left
    intro edge _
    exact strike_rename hf node edge
  have hfreed (edges : List (α × List α × Bool)) :
      (edges.map fun edge => (f edge.1, edge.2.1.map f, edge.2.2)).filter
          (fun edge => edge.2.2 && edge.2.1.isEmpty) =
        (edges.filter fun edge => edge.2.2 && edge.2.1.isEmpty).map
          fun edge => (f edge.1, edge.2.1.map f, edge.2.2) := by
    apply filter_map_of_eq
    intro edge
    rw [List.isEmpty_map]
  simp only [take_eq, rename, hothers, hleft, hfreed]
  simp only [Graph.rename, List.map_map, List.map_append, List.map_reverse, List.map_drop,
    Function.comp_def]

theorem order_rename (hf : Function.Injective f) (limit : Nat) (waiting : Waiting α) :
    order limit (waiting.rename f) = (order limit waiting).map f := by
  induction limit generalizing waiting with
  | zero => rfl
  | succ limit ih =>
    rw [order, order, next?_rename]
    cases waiting.next? with
    | none => rfl
    | some node =>
      dsimp only [Option.map_some]
      rw [take_rename hf, ih, List.map_cons]

end Waiting

variable [DecidableEq α] [DecidableEq β]

/-- The order of a graph is that of the graph under other names. -/
theorem topologicalOrder_rename (hf : Function.Injective f) (edges : List (α × List α)) :
    topologicalOrder (rename f edges) = (topologicalOrder edges).map f := by
  unfold topologicalOrder
  rw [Waiting.start_rename hf, Waiting.order_rename hf, rename, List.length_map]

end

end Graph

end SchemaClasses
