import Mathlib.Data.List.Nodup
import SchemaClasses.Graph.TopologicalOrder
import SchemaClasses.Proofs.Graph.Cycle

/-!
# What the topological order puts first

While nodes are taken, the nodes left wait only for nodes left, and the ready ones are those that
wait for nothing. Hence every node is taken once. A node is taken before one that it waits for only
when no node is ready, which is when the nodes left all lead into cycles; then it is the first of
them. This settles for every edge which of its ends comes first.
-/

namespace SchemaClasses.Graph

variable {α : Type}

namespace Waiting

variable {waiting : Waiting α} {node : α}

def nodes (waiting : Waiting α) : List α := waiting.remaining.map Prod.fst

/-- Nodes wait only for other nodes that are left, and the ready ones wait for none. -/
structure Tidy (waiting : Waiting α) : Prop where
  distinct : waiting.nodes.Nodup
  waits : ∀ edge ∈ waiting.remaining, ∀ d ∈ edge.2, d ≠ edge.1 ∧ d ∈ waiting.nodes
  ready : ∀ node, node ∈ waiting.ready ↔ (node, []) ∈ waiting.remaining
  nodup : waiting.ready.Nodup

theorem nodes_eq_nil (h : waiting.next? = none) : waiting.nodes = [] := by
  unfold next? at h
  split at h
  · cases h
  · rw [Option.map_eq_none_iff, List.head?_eq_none_iff] at h
    rw [nodes, h, List.map_nil]

namespace Tidy

theorem unique (tidy : waiting.Tidy) {a : α} {first second : List α}
    (hfirst : (a, first) ∈ waiting.remaining) (hsecond : (a, second) ∈ waiting.remaining) :
    first = second :=
  (Prod.mk.inj (List.inj_on_of_nodup_map tidy.distinct hfirst hsecond rfl)).2

theorem next?_cases (tidy : waiting.Tidy) (h : waiting.next? = some node) :
    ((node, []) ∈ waiting.remaining ∧ ∃ rest, waiting.ready = node :: rest) ∨
      (waiting.ready = [] ∧ (∀ edge ∈ waiting.remaining, edge.2 ≠ []) ∧
        ∃ deps rest, waiting.remaining = (node, deps) :: rest) := by
  unfold next? at h
  cases hready : waiting.ready with
  | cons first rest =>
    simp only [hready] at h
    obtain rfl := Option.some.inj h
    exact .inl ⟨(tidy.ready first).mp (by simp [hready]), rest, rfl⟩
  | nil =>
    simp only [hready] at h
    refine .inr ⟨rfl, ?_, ?_⟩
    · rintro ⟨a, deps⟩ hedge rfl
      have := (tidy.ready a).mpr hedge
      simp [hready] at this
    · cases hremaining : waiting.remaining with
      | nil => simp [hremaining] at h
      | cons edge rest =>
        obtain rfl : edge.1 = node := by simpa [hremaining] using h
        exact ⟨edge.2, rest, rfl⟩

theorem mem_nodes_of_next? (tidy : waiting.Tidy) (h : waiting.next? = some node) :
    node ∈ waiting.nodes := by
  obtain ⟨hmem, -⟩ | ⟨-, -, deps, rest, hremaining⟩ := tidy.next?_cases h
  · exact List.mem_map_of_mem hmem
  · simp [nodes, hremaining]

/-- The ready nodes that are left behind by the one that goes next. -/
theorem mem_drop_ready (tidy : waiting.Tidy) (h : waiting.next? = some node) {a : α} :
    a ∈ waiting.ready.drop 1 ↔ a ≠ node ∧ (a, []) ∈ waiting.remaining := by
  obtain ⟨-, rest, hready⟩ | ⟨hready, hwaits, -⟩ := tidy.next?_cases h
  · have hnodup := tidy.nodup
    rw [hready, List.nodup_cons] at hnodup
    rw [← tidy.ready, hready, List.drop_one, List.tail_cons, List.mem_cons]
    constructor
    · intro ha
      exact ⟨fun heq => hnodup.1 (heq ▸ ha), .inr ha⟩
    · rintro ⟨hne, heq | ha⟩
      · exact absurd heq hne
      · exact ha
  · rw [hready, List.drop_nil]
    exact ⟨fun ha => absurd ha List.not_mem_nil, fun ⟨_, hmem⟩ => absurd rfl (hwaits _ hmem)⟩

theorem endless (tidy : waiting.Tidy) (hwaits : ∀ edge ∈ waiting.remaining, edge.2 ≠ []) {d : α}
    (hd : d ∈ waiting.nodes) : Endless waiting.remaining d := by
  refine ⟨(· ∈ waiting.nodes), hd, fun a ha => ?_⟩
  obtain ⟨⟨a, deps⟩, hmem, rfl⟩ := List.mem_map.mp ha
  obtain ⟨b, hb⟩ := List.exists_mem_of_ne_nil deps (hwaits _ hmem)
  obtain ⟨hne, hnode⟩ := tidy.waits _ hmem b hb
  exact ⟨b, ⟨⟨deps, hmem, hb⟩, hne, hnode⟩, hnode⟩

end Tidy

variable [DecidableEq α]

theorem remaining_take (waiting : Waiting α) (node : α) :
    (waiting.take node).remaining =
      (waiting.remaining.filter (·.1 ≠ node)).map fun edge =>
        (edge.1, edge.2.filter (· ≠ node)) := by
  simp [take]

theorem mem_remaining_take {a : α} {left : List α} :
    (a, left) ∈ (waiting.take node).remaining ↔
      a ≠ node ∧ ∃ deps, (a, deps) ∈ waiting.remaining ∧ left = deps.filter (· ≠ node) := by
  rw [remaining_take, List.mem_map]
  constructor
  · rintro ⟨⟨b, deps⟩, hedge, heq⟩
    obtain ⟨rfl, rfl⟩ := Prod.mk.inj heq
    obtain ⟨hmem, hne⟩ := List.mem_filter.mp hedge
    exact ⟨by simpa using hne, deps, hmem, rfl⟩
  · rintro ⟨hne, deps, hmem, rfl⟩
    exact ⟨(a, deps), List.mem_filter.mpr ⟨hmem, by simpa using hne⟩, rfl⟩

/-- The nodes that wait for a node alone, which become ready when it is taken. -/
def freed (waiting : Waiting α) (node : α) : List α :=
  (waiting.remaining.filter fun edge =>
    edge.1 ≠ node && (edge.2.contains node && (edge.2.filter (· ≠ node)).isEmpty)).map Prod.fst

theorem ready_take (waiting : Waiting α) (node : α) :
    (waiting.take node).ready = (waiting.freed node).reverse ++ waiting.ready.drop 1 := by
  simp [take, freed, List.filter_map, List.filter_filter, Function.comp_def, Bool.and_comm]

theorem mem_freed {a : α} :
    a ∈ waiting.freed node ↔ a ≠ node ∧ ∃ deps, (a, deps) ∈ waiting.remaining ∧ node ∈ deps ∧
      deps.filter (· ≠ node) = [] := by
  simp only [freed, List.mem_map, List.mem_filter, Bool.and_eq_true, decide_eq_true_eq,
    List.contains_iff_mem, List.isEmpty_iff]
  constructor
  · rintro ⟨⟨_, deps⟩, ⟨hmem, hne, hfreed⟩, rfl⟩
    exact ⟨hne, deps, hmem, hfreed⟩
  · rintro ⟨hne, deps, hmem, hfreed⟩
    exact ⟨(a, deps), ⟨hmem, hne, hfreed⟩, rfl⟩

namespace Tidy

theorem nodes_take (tidy : waiting.Tidy) :
    (waiting.take node).nodes = waiting.nodes.erase node := by
  rw [nodes, remaining_take, List.map_map, tidy.distinct.erase_eq_filter, nodes, List.filter_map]
  congr 1
  refine List.filter_congr fun edge _ => ?_
  by_cases h : edge.1 = node <;> simp [h]

theorem take (tidy : waiting.Tidy) (h : waiting.next? = some node) :
    (waiting.take node).Tidy := by
  refine ⟨?_, ?_, ?_, ?_⟩
  · rw [tidy.nodes_take]
    exact tidy.distinct.erase node
  · rintro ⟨a, left⟩ hedge d hd
    obtain ⟨-, deps, hmem, rfl⟩ := mem_remaining_take.mp hedge
    obtain ⟨hd, hne⟩ := List.mem_filter.mp hd
    obtain ⟨hself, hnode⟩ := tidy.waits _ hmem d hd
    rw [tidy.nodes_take, tidy.distinct.mem_erase_iff]
    exact ⟨hself, by simpa using hne, hnode⟩
  · intro a
    rw [ready_take, List.mem_append, List.mem_reverse, mem_freed, tidy.mem_drop_ready h,
      mem_remaining_take]
    constructor
    · rintro (⟨hne, deps, hmem, -, hempty⟩ | ⟨hne, hmem⟩)
      · exact ⟨hne, deps, hmem, hempty.symm⟩
      · exact ⟨hne, [], hmem, rfl⟩
    · rintro ⟨hne, deps, hmem, hempty⟩
      by_cases hnode : node ∈ deps
      · exact .inl ⟨hne, deps, hmem, hnode, hempty.symm⟩
      · have hkept : deps.filter (· ≠ node) = deps := by
          refine List.filter_eq_self.mpr fun d hd => ?_
          exact decide_eq_true fun heq => hnode (heq ▸ hd)
        rw [hkept] at hempty
        exact .inr ⟨hne, hempty ▸ hmem⟩
  · rw [ready_take, List.nodup_append, List.nodup_reverse]
    refine ⟨?_, tidy.nodup.sublist (List.drop_sublist _ _), ?_⟩
    · exact tidy.distinct.sublist (List.filter_sublist.map Prod.fst)
    · rintro a ha _ ha' rfl
      obtain ⟨-, deps, hmem, hnode, -⟩ := mem_freed.mp (List.mem_reverse.mp ha)
      have := tidy.unique hmem ((tidy.mem_drop_ready h).mp ha').2
      simp [this] at hnode

end Tidy

/-- The order of all nodes left takes each of them once. -/
theorem order_perm (tidy : waiting.Tidy) {limit : Nat} (hlimit : waiting.nodes.length = limit) :
    (waiting.order limit).Perm waiting.nodes := by
  induction limit generalizing waiting with
  | zero =>
    rw [List.length_eq_zero_iff] at hlimit
    rw [order, hlimit]
  | succ limit ih =>
    rw [order]
    cases hnext : waiting.next? with
    | none =>
      rw [nodes_eq_nil hnext] at hlimit
      cases hlimit
    | some node =>
      have hnode := tidy.mem_nodes_of_next? hnext
      have hlength : (waiting.take node).nodes.length = limit := by
        rw [tidy.nodes_take, List.length_erase_of_mem hnode, hlimit, Nat.add_sub_cancel]
      have := ih (tidy.take hnext) hlength
      rw [tidy.nodes_take] at this
      exact (this.cons node).trans (List.perm_cons_erase hnode).symm

end Waiting

variable [DecidableEq α]

/-- The nodes of a graph from a given one on. -/
def startingAt (edges : List (α × List α)) (node : α) : List (α × List α) :=
  edges.dropWhile (·.1 ≠ node)

theorem mem_of_mem_startingAt {edges : List (α × List α)} {node : α} {edge : α × List α}
    (h : edge ∈ startingAt edges node) : edge ∈ edges :=
  (List.dropWhile_sublist _).mem h

theorem startingAt_head (node : α) (deps : List α) (rest : List (α × List α)) :
    startingAt ((node, deps) :: rest) node = (node, deps) :: rest := by
  simp [startingAt]

theorem head_not_mem_startingAt {first node : α} {deps : List α} {rest : List (α × List α)}
    (distinct : (first :: rest.map Prod.fst).Nodup) (hne : first ≠ node) {edge : α × List α}
    (h : edge ∈ startingAt ((first, deps) :: rest) node) : edge.1 ≠ first := by
  rw [startingAt, List.dropWhile_cons_of_pos (by simpa using hne)] at h
  rintro rfl
  exact (List.nodup_cons.mp distinct).1 (List.mem_map_of_mem (mem_of_mem_startingAt h))

namespace Waiting

variable {waiting : Waiting α} {node : α}

theorem startingAt_take {first : α} (hne : first ≠ node) :
    startingAt (waiting.take node).remaining first =
      ((startingAt waiting.remaining first).filter (·.1 ≠ node)).map fun edge =>
        (edge.1, edge.2.filter (· ≠ node)) := by
  rw [remaining_take, startingAt, startingAt]
  induction waiting.remaining with
  | nil => rfl
  | cons edge rest ih =>
    obtain ⟨a, deps⟩ := edge
    by_cases hfirst : a = first
    · subst a
      simp [hne]
    · by_cases hnode : a = node <;> simp_all

/-- Taking a node takes away the edges from it and to it, and no others. -/
theorem leads_take {first a b : α} (hne : first ≠ node) :
    Leads (startingAt (waiting.take node).remaining first) a b ↔
      a ≠ node ∧ b ≠ node ∧ Leads (startingAt waiting.remaining first) a b := by
  rw [startingAt_take hne]
  simp only [Leads, List.mem_map, List.mem_filter, decide_eq_true_eq]
  constructor
  · rintro ⟨⟨_, ⟨⟨_, deps⟩, ⟨ha, hane⟩, heq⟩, hb⟩, hab,
      ⟨_, ⟨⟨_, others⟩, ⟨hbmem, hbne⟩, rfl⟩, rfl⟩⟩
    obtain ⟨rfl, rfl⟩ := Prod.mk.inj heq
    exact ⟨hane, hbne, ⟨deps, ha, (List.mem_filter.mp hb).1⟩, hab, ⟨_, hbmem, rfl⟩⟩
  · rintro ⟨hane, hbne, ⟨deps, ha, hb⟩, hab, ⟨⟨_, others⟩, hbmem, rfl⟩⟩
    exact ⟨⟨_, ⟨(a, deps), ⟨ha, hane⟩, rfl⟩, List.mem_filter.mpr ⟨hb, by simpa using hbne⟩⟩,
      hab, ⟨_, ⟨(_, others), ⟨hbmem, hbne⟩, rfl⟩, rfl⟩⟩

namespace Tidy

/-- The node that goes next leads nowhere among the nodes from another one on: either it is ready,
or it comes before them. -/
theorem not_leads_next (tidy : waiting.Tidy) (h : waiting.next? = some node) {first b : α}
    (hne : first ≠ node) : ¬Leads (startingAt waiting.remaining first) node b := by
  rintro ⟨⟨deps, hmem, hb⟩, -⟩
  obtain ⟨hready, -⟩ | ⟨-, -, waits, rest, hremaining⟩ := tidy.next?_cases h
  · rw [tidy.unique (mem_of_mem_startingAt hmem) hready] at hb
    exact absurd hb List.not_mem_nil
  · have distinct := tidy.distinct
    rw [nodes, hremaining] at distinct
    rw [hremaining] at hmem
    exact head_not_mem_startingAt distinct (Ne.symm hne) hmem rfl

/-- Whatever goes next, as long as it is not the first of some nodes, the same of these go on
endlessly after it as before. -/
theorem endless_take (tidy : waiting.Tidy) (h : waiting.next? = some node) {first d : α}
    (hne : first ≠ node) :
    Endless (startingAt (waiting.take node).remaining first) d ↔
      Endless (startingAt waiting.remaining first) d := by
  constructor
  · rintro ⟨on, hon, hnext⟩
    refine ⟨on, hon, fun a ha => ?_⟩
    obtain ⟨b, hleads, hb⟩ := hnext a ha
    exact ⟨b, ((leads_take hne).mp hleads).2.2, hb⟩
  · rintro ⟨on, hon, hnext⟩
    have hoff {a : α} (ha : on a) : a ≠ node := by
      rintro rfl
      obtain ⟨b, hleads, -⟩ := hnext a ha
      exact tidy.not_leads_next h hne hleads
    refine ⟨on, hon, fun a ha => ?_⟩
    obtain ⟨b, hleads, hb⟩ := hnext a ha
    exact ⟨b, (leads_take hne).mpr ⟨hoff ha, hoff hb, hleads⟩, hb⟩

/-- A node comes before one that it waits for exactly when, among the nodes from it on, the other
leads on endlessly. -/
theorem idxOf_lt_iff (tidy : waiting.Tidy) {limit : Nat}
    (hlimit : waiting.nodes.length = limit) {deps : List α} {d : α}
    (hnode : (node, deps) ∈ waiting.remaining) (hd : d ∈ deps) :
    (waiting.order limit).idxOf node < (waiting.order limit).idxOf d ↔
      Endless (startingAt waiting.remaining node) d := by
  induction limit generalizing waiting deps with
  | zero =>
    rw [List.length_eq_zero_iff] at hlimit
    exact absurd (List.mem_map_of_mem hnode) (hlimit ▸ List.not_mem_nil)
  | succ limit ih =>
    obtain ⟨hdn, hdmem⟩ := tidy.waits _ hnode d hd
    rw [order]
    cases hnext : waiting.next? with
    | none =>
      rw [nodes_eq_nil hnext] at hlimit
      cases hlimit
    | some next =>
      dsimp only
      -- The first of the two to go settles the order. Until then neither goes, and what the other
      -- leads to among the nodes from `node` on stays the same.
      by_cases hn : node = next
      · subst node
        obtain ⟨hready, -⟩ | ⟨-, hwaits, first, rest, hremaining⟩ := tidy.next?_cases hnext
        · rw [tidy.unique hnode hready] at hd
          exact absurd hd List.not_mem_nil
        · have hendless : Endless (startingAt waiting.remaining next) d := by
            rw [hremaining, startingAt_head, ← hremaining]
            exact tidy.endless hwaits hdmem
          simp [Ne.symm hdn, hendless]
      · by_cases hdnext : d = next
        · subst d
          have hends : ¬Endless (startingAt waiting.remaining node) next := by
            rintro ⟨on, hon, hleads⟩
            obtain ⟨b, hleads, -⟩ := hleads next hon
            exact tidy.not_leads_next hnext hn hleads
          simp [hends]
        · have hlength : (waiting.take next).nodes.length = limit := by
            rw [tidy.nodes_take, List.length_erase_of_mem (tidy.mem_nodes_of_next? hnext),
              hlimit, Nat.add_sub_cancel]
          have hleft : (node, deps.filter (· ≠ next)) ∈ (waiting.take next).remaining :=
            mem_remaining_take.mpr ⟨hn, deps, hnode, rfl⟩
          have := ih (tidy.take hnext) hlength hleft
            (List.mem_filter.mpr ⟨hd, by simpa using hdnext⟩)
          rw [← tidy.endless_take hnext hn, ← this, List.idxOf_cons_ne _ (Ne.symm hn),
            List.idxOf_cons_ne _ (Ne.symm hdnext)]
          omega

end Tidy

theorem remaining_start (edges : List (α × List α)) :
    (start edges).remaining = edges.map fun edge =>
      (edge.1, edge.2.filter fun d => d ≠ edge.1 && edges.any (·.1 = d)) := rfl

theorem nodes_start (edges : List (α × List α)) :
    (start edges).nodes = edges.map Prod.fst := by
  rw [nodes, remaining_start, List.map_map]
  rfl

theorem start_tidy {edges : List (α × List α)} (distinct : (edges.map Prod.fst).Nodup) :
    (start edges).Tidy := by
  have hready : (start edges).ready =
      (((start edges).remaining.filter (·.2.isEmpty)).map Prod.fst).reverse := rfl
  refine ⟨?_, ?_, ?_, ?_⟩
  · rwa [nodes_start]
  · rintro ⟨a, left⟩ hedge d hd
    rw [remaining_start] at hedge
    obtain ⟨⟨b, deps⟩, -, heq⟩ := List.mem_map.mp hedge
    obtain ⟨rfl, rfl⟩ := Prod.mk.inj heq
    rw [nodes_start, List.mem_map]
    simpa using (List.mem_filter.mp hd).2
  · intro node
    rw [hready, List.mem_reverse, List.mem_map]
    constructor
    · rintro ⟨⟨_, left⟩, hedge, rfl⟩
      obtain ⟨hmem, hempty⟩ := List.mem_filter.mp hedge
      obtain rfl : left = [] := List.isEmpty_iff.mp hempty
      exact hmem
    · intro hmem
      exact ⟨(node, []), List.mem_filter.mpr ⟨hmem, rfl⟩, rfl⟩
  · rw [hready, List.nodup_reverse]
    refine List.Nodup.sublist (List.filter_sublist.map Prod.fst) ?_
    change (start edges).nodes.Nodup
    rwa [nodes_start]

/-- What a node need not wait for leads to no cycle. -/
theorem leads_start {edges : List (α × List α)} {first : α} :
    Leads (startingAt (start edges).remaining first) = Leads (startingAt edges first) := by
  have hstarting : startingAt (start edges).remaining first =
      (startingAt edges first).map fun edge =>
        (edge.1, edge.2.filter fun d => d ≠ edge.1 && edges.any (·.1 = d)) := by
    rw [remaining_start, startingAt, startingAt, List.dropWhile_map]
    rfl
  funext a b
  rw [hstarting]
  simp only [Leads, List.mem_map, Prod.mk.injEq, List.map_map, eq_iff_iff]
  constructor
  · rintro ⟨⟨_, ⟨⟨_, deps⟩, hmem, rfl, rfl⟩, hb⟩, hne, hnode⟩
    exact ⟨⟨deps, hmem, (List.mem_filter.mp hb).1⟩, hne, hnode⟩
  · rintro ⟨⟨deps, hmem, hb⟩, hne, edge, hedge, rfl⟩
    have hnode : ∃ e ∈ edges, e.1 = edge.1 := ⟨edge, mem_of_mem_startingAt hedge, rfl⟩
    exact ⟨⟨_, ⟨(a, deps), hmem, rfl, rfl⟩, List.mem_filter.mpr ⟨hb, by simpa [hne] using hnode⟩⟩,
      hne, edge, hedge, rfl⟩

end Waiting

variable {edges : List (α × List α)}

/-- Every node is in the order once. -/
theorem topologicalOrder_perm (distinct : (edges.map Prod.fst).Nodup) :
    (topologicalOrder edges).Perm (edges.map Prod.fst) := by
  have hperm : (Waiting.order edges.length (Waiting.start edges)).Perm _ :=
    Waiting.order_perm (Waiting.start_tidy distinct) (by rw [Waiting.nodes_start, List.length_map])
  rwa [Waiting.nodes_start] at hperm

/-- A node comes before one that it depends on exactly when, among the nodes from it on, the other
leads to a cycle. -/
theorem topologicalOrder_idxOf_lt_iff (distinct : (edges.map Prod.fst).Nodup) {node d : α}
    (h : Leads edges node d) :
    (topologicalOrder edges).idxOf node < (topologicalOrder edges).idxOf d ↔
      LeadsToCycle (startingAt edges node) d := by
  obtain ⟨⟨deps, hnode, hd⟩, hne, hmem⟩ := h
  have hstart : (node, deps.filter fun d => d ≠ node && edges.any (·.1 = d)) ∈
      (Waiting.start edges).remaining :=
    List.mem_map.mpr ⟨(node, deps), hnode, rfl⟩
  have hwaits : d ∈ deps.filter fun d => d ≠ node && edges.any (·.1 = d) := by
    refine List.mem_filter.mpr ⟨hd, ?_⟩
    simpa [hne] using List.mem_map.mp hmem
  rw [topologicalOrder, (Waiting.start_tidy distinct).idxOf_lt_iff
    (by rw [Waiting.nodes_start, List.length_map]) hstart hwaits, endless_iff, LeadsToCycle,
    Waiting.leads_start, LeadsToCycle]

end SchemaClasses.Graph
