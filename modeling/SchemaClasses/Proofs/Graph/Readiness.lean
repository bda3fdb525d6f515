import SchemaClasses.Proofs.Graph.TopologicalOrder

/-!
# Which node goes next

A node is ready when all that it waits for has been taken, and it has been ready since the step at
which the last of these was taken. The stack of a topological order holds the ready nodes by the
step since when they are ready, and those of the same step by their places in the graph. So at every
position of the order the node is known from the nodes before it alone, also after a node was taken
that was not ready.
-/

namespace SchemaClasses.Graph

variable {α : Type} {edges : List (α × List α)} {taken : List α} {a b : α}

/-- All that a node waits for has been taken. -/
def Met (edges : List (α × List α)) (taken : List α) (a : α) : Prop :=
  ∀ d, Leads edges a d → d ∈ taken

/-- A node of the graph that could go next without being early. -/
structure Ready (edges : List (α × List α)) (taken : List α) (a : α) : Prop where
  isNode : a ∈ edges.map Prod.fst
  left : a ∉ taken
  met : Met edges taken a

/-- A node waits for nothing more from a step on. -/
structure ReadySince (edges : List (α × List α)) (taken : List α) (a : α) (step : ℕ) : Prop where
  met : Met edges (taken.take step) a
  first : ∀ earlier < step, ¬Met edges (taken.take earlier) a

theorem Met.mono {more : List α} (h : Met edges taken a) (hsub : taken ⊆ more) :
    Met edges more a := fun d hd => hsub (h d hd)

namespace ReadySince

theorem unique {m n : ℕ} (hm : ReadySince edges taken a m) (hn : ReadySince edges taken a n) :
    m = n := by
  rcases Nat.lt_trichotomy m n with hlt | heq | hlt
  · exact absurd hm.met (hn.first m hlt)
  · exact heq
  · exact absurd hn.met (hm.first n hlt)

theorem exists_of_met (h : Met edges taken a) :
    ∃ step ≤ taken.length, ReadySince edges taken a step := by
  classical
  have hmet : ∃ step, Met edges (taken.take step) a :=
    ⟨taken.length, by rwa [List.take_length]⟩
  refine ⟨Nat.find hmet, Nat.find_min' hmet ?_, Nat.find_spec hmet, fun _ => Nat.find_min hmet⟩
  rwa [List.take_length]

theorem le_length {step : ℕ} (h : ReadySince edges taken a step) : step ≤ taken.length := by
  have hmet : Met edges taken a := h.met.mono (List.take_subset step taken)
  obtain ⟨n, hn, hsince⟩ := exists_of_met hmet
  rwa [h.unique hsince]

theorem append {step : ℕ} (h : ReadySince edges taken a step) (later : List α) :
    ReadySince edges (taken ++ later) a step := by
  have htake {n : ℕ} (hn : n ≤ step) : (taken ++ later).take n = taken.take n :=
    List.take_append_of_le_length (hn.trans h.le_length)
  refine ⟨?_, fun earlier hlt => ?_⟩
  · rw [htake le_rfl]
    exact h.met
  · rw [htake hlt.le]
    exact h.first earlier hlt

theorem of_last (hmet : Met edges (taken ++ [b]) a) (hleads : Leads edges a b) (hb : b ∉ taken) :
    ReadySince edges (taken ++ [b]) a (taken.length + 1) := by
  refine ⟨?_, fun earlier hlt hearlier => ?_⟩
  · rwa [List.take_of_length_le (by simp)]
  · rw [List.take_append_of_le_length (Nat.le_of_lt_succ hlt)] at hearlier
    exact hb (List.mem_of_mem_take (hearlier b hleads))

end ReadySince

variable [DecidableEq α]

/-- One node became ready after another, or at the same step as another that is before it in the
graph. -/
def ReadyAfter (edges : List (α × List α)) (taken : List α) (a b : α) : Prop :=
  ∃ m n, ReadySince edges taken a m ∧ ReadySince edges taken b n ∧
    (n < m ∨ n = m ∧ (edges.map Prod.fst).idxOf b < (edges.map Prod.fst).idxOf a)

/-- The node that may follow those that have been taken: of the ready ones the one that became ready
last, or else the first that is left. -/
structure Follows (edges : List (α × List α)) (taken : List α) (next : α) : Prop where
  ready : (∃ a, Ready edges taken a) → Ready edges taken next
  last : ∀ a, Ready edges taken a → a ≠ next → ReadyAfter edges taken next a
  first : (¬∃ a, Ready edges taken a) →
    ((edges.map Prod.fst).filter (· ∉ taken)).head? = some next

theorem ReadyAfter.append (h : ReadyAfter edges taken a b) (later : List α) :
    ReadyAfter edges (taken ++ later) a b := by
  obtain ⟨m, n, hm, hn, hafter⟩ := h
  exact ⟨m, n, hm.append later, hn.append later, hafter⟩

theorem readyAfter_reverse {nodes : List α} (distinct : (edges.map Prod.fst).Nodup)
    (hsub : nodes.Sublist (edges.map Prod.fst)) (step : ℕ)
    (hsince : ∀ a ∈ nodes, ReadySince edges taken a step) :
    nodes.reverse.Pairwise (ReadyAfter edges taken) := by
  have hplaces : (edges.map Prod.fst).Pairwise fun a b =>
      (edges.map Prod.fst).idxOf a < (edges.map Prod.fst).idxOf b := by
    rw [List.pairwise_iff_getElem]
    intro i j hi hj hij
    rwa [distinct.idxOf_getElem, distinct.idxOf_getElem]
  rw [List.pairwise_reverse]
  refine (hplaces.sublist hsub).imp_of_mem fun ha hb hlt => ?_
  exact ⟨step, step, hsince _ hb, hsince _ ha, .inr ⟨rfl, hlt⟩⟩

namespace Waiting

variable {waiting : Waiting α} {node : α}

/-- What is left of a graph when some of its nodes have been taken, with the ready nodes the last
first. -/
structure Reached (edges : List (α × List α)) (taken : List α) (waiting : Waiting α) : Prop where
  tidy : waiting.Tidy
  remaining : waiting.remaining = ((start edges).remaining.filter (·.1 ∉ taken)).map fun edge =>
    (edge.1, edge.2.filter (· ∉ taken))
  sorted : waiting.ready.Pairwise (ReadyAfter edges taken)

theorem mem_waits_start (distinct : (edges.map Prod.fst).Nodup) {left : List α}
    (h : (a, left) ∈ (start edges).remaining) {d : α} : d ∈ left ↔ Leads edges a d := by
  rw [remaining_start] at h
  obtain ⟨⟨node, deps⟩, hmem, heq⟩ := List.mem_map.mp h
  obtain ⟨rfl, rfl⟩ := Prod.mk.inj heq
  have hdeps : (∃ others, (node, others) ∈ edges ∧ d ∈ others) ↔ d ∈ deps := by
    refine ⟨?_, fun hd => ⟨deps, hmem, hd⟩⟩
    rintro ⟨others, hothers, hd⟩
    obtain ⟨-, rfl⟩ := Prod.mk.inj (List.inj_on_of_nodup_map distinct hothers hmem rfl)
    exact hd
  simp only [Leads, hdeps, List.mem_filter, Bool.and_eq_true, decide_eq_true_eq,
    List.any_eq_true, List.mem_map]

theorem start_reached (distinct : (edges.map Prod.fst).Nodup) :
    (start edges).Reached edges [] := by
  refine ⟨start_tidy distinct, by simp, ?_⟩
  refine readyAfter_reverse distinct ?_ 0 fun a ha => ⟨fun d hd => ?_, by simp⟩
  · rw [← nodes_start edges]
    exact List.filter_sublist.map Prod.fst
  · obtain ⟨⟨_, left⟩, hmem, rfl⟩ := List.mem_map.mp ha
    obtain ⟨hmem, hempty⟩ := List.mem_filter.mp hmem
    obtain rfl : left = [] := List.isEmpty_iff.mp hempty
    exact (mem_waits_start distinct hmem).mpr hd

namespace Reached

theorem nodes (h : waiting.Reached edges taken) :
    waiting.nodes = (edges.map Prod.fst).filter (· ∉ taken) := by
  rw [← nodes_start, Waiting.nodes, h.remaining, Waiting.nodes, List.map_map, List.filter_map]
  rfl

theorem mem_waits (h : waiting.Reached edges taken) (distinct : (edges.map Prod.fst).Nodup)
    {left : List α} (hmem : (a, left) ∈ waiting.remaining) {d : α} :
    d ∈ left ↔ Leads edges a d ∧ d ∉ taken := by
  rw [h.remaining] at hmem
  obtain ⟨⟨node, waits⟩, hstart, heq⟩ := List.mem_map.mp hmem
  obtain ⟨rfl, rfl⟩ := Prod.mk.inj heq
  rw [List.mem_filter, mem_waits_start distinct (List.mem_filter.mp hstart).1, decide_eq_true_iff]

/-- The nodes left that wait for nothing are those that are ready. -/
theorem mem_remaining_iff (h : waiting.Reached edges taken)
    (distinct : (edges.map Prod.fst).Nodup) :
    (a, []) ∈ waiting.remaining ↔ Ready edges taken a := by
  constructor
  · intro hmem
    have hnode : a ∈ waiting.nodes := List.mem_map_of_mem hmem
    rw [h.nodes, List.mem_filter, decide_eq_true_iff] at hnode
    refine ⟨hnode.1, hnode.2, fun d hd => ?_⟩
    by_contra hleft
    exact absurd ((h.mem_waits distinct hmem).mpr ⟨hd, hleft⟩) List.not_mem_nil
  · intro hready
    have hnode : a ∈ waiting.nodes := by
      rw [h.nodes, List.mem_filter, decide_eq_true_iff]
      exact ⟨hready.isNode, hready.left⟩
    obtain ⟨⟨_, left⟩, hmem, rfl⟩ := List.mem_map.mp hnode
    have hempty : left = [] := by
      refine List.eq_nil_iff_forall_not_mem.mpr fun d hd => ?_
      obtain ⟨hleads, hleft⟩ := (h.mem_waits distinct hmem).mp hd
      exact hleft (hready.met d hleads)
    rwa [hempty] at hmem

theorem mem_ready_iff (h : waiting.Reached edges taken)
    (distinct : (edges.map Prod.fst).Nodup) : a ∈ waiting.ready ↔ Ready edges taken a := by
  rw [h.tidy.ready, h.mem_remaining_iff distinct]

/-- The node that the stack gives is the one that may follow. -/
theorem follows (h : waiting.Reached edges taken) (distinct : (edges.map Prod.fst).Nodup)
    (hnext : waiting.next? = some node) : Follows edges taken node := by
  obtain ⟨hmem, rest, hready⟩ | ⟨hready, -, deps, rest, hremaining⟩ := h.tidy.next?_cases hnext
  · have hnode := (h.mem_remaining_iff distinct).mp hmem
    refine ⟨fun _ => hnode, fun a ha hne => ?_, fun hnone => absurd ⟨node, hnode⟩ hnone⟩
    have hsorted := h.sorted
    rw [hready, List.pairwise_cons] at hsorted
    rw [← h.mem_ready_iff distinct, hready, List.mem_cons] at ha
    exact hsorted.1 a (ha.resolve_left hne)
  · have hnone {a : α} : ¬Ready edges taken a := by
      rw [← h.mem_ready_iff distinct, hready]
      exact List.not_mem_nil
    refine ⟨fun ⟨a, ha⟩ => absurd ha hnone, fun a ha => absurd ha hnone, fun _ => ?_⟩
    rw [← h.nodes, Waiting.nodes, hremaining]
    rfl

/-- A node that becomes ready when another is taken is ready since then. -/
theorem readySince_of_mem_freed (h : waiting.Reached edges taken)
    (distinct : (edges.map Prod.fst).Nodup) (hfreed : a ∈ waiting.freed node) :
    ReadySince edges (taken ++ [node]) a (taken.length + 1) := by
  obtain ⟨-, deps, hmem, hnode, hempty⟩ := mem_freed.mp hfreed
  obtain ⟨hleads, hleft⟩ := (h.mem_waits distinct hmem).mp hnode
  refine .of_last (fun d hd => ?_) hleads hleft
  rw [List.mem_append, List.mem_singleton]
  by_contra hnot
  obtain ⟨hd', hne⟩ := not_or.mp hnot
  have hdeps : d ∈ deps := (h.mem_waits distinct hmem).mpr ⟨hd, hd'⟩
  have hkept : d ∈ deps.filter (· ≠ node) := List.mem_filter.mpr ⟨hdeps, decide_eq_true hne⟩
  rw [hempty] at hkept
  exact absurd hkept List.not_mem_nil

theorem take (h : waiting.Reached edges taken) (distinct : (edges.map Prod.fst).Nodup)
    (hnext : waiting.next? = some node) :
    (waiting.take node).Reached edges (taken ++ [node]) := by
  refine ⟨h.tidy.take hnext, ?_, ?_⟩
  · rw [remaining_take, h.remaining, List.filter_map, List.map_map, List.filter_filter]
    simp only [List.mem_append, List.mem_singleton, not_or, Function.comp_def, List.filter_filter,
      Bool.decide_and, Bool.and_comm]
  · have hnodes : (waiting.freed node).Sublist (edges.map Prod.fst) := by
      have hfreed : (waiting.freed node).Sublist waiting.nodes :=
        List.filter_sublist.map Prod.fst
      rw [h.nodes] at hfreed
      exact hfreed.trans List.filter_sublist
    have hlast := readyAfter_reverse distinct hnodes _ fun _ =>
      h.readySince_of_mem_freed distinct
    rw [ready_take, List.pairwise_append]
    refine ⟨hlast, ?_, ?_⟩
    · exact (h.sorted.sublist (List.drop_sublist _ _)).imp fun hafter => hafter.append [node]
    · intro a ha b hb
      have hready := (h.mem_ready_iff distinct).mp (List.mem_of_mem_drop hb)
      obtain ⟨step, hstep, hsince⟩ := ReadySince.exists_of_met hready.met
      exact ⟨_, step, h.readySince_of_mem_freed distinct (List.mem_reverse.mp ha),
        hsince.append [node], .inl (Nat.lt_succ_of_le hstep)⟩

/-- Every node of the order from some point on may follow those before it. -/
theorem order_follows (h : waiting.Reached edges taken) (distinct : (edges.map Prod.fst).Nodup)
    {limit : ℕ} {before after : List α} (horder : waiting.order limit = before ++ node :: after) :
    Follows edges (taken ++ before) node := by
  induction limit generalizing waiting taken before with
  | zero => simp [order] at horder
  | succ limit ih =>
    rw [order] at horder
    cases hnext : waiting.next? with
    | none => simp [hnext] at horder
    | some next =>
      simp only [hnext] at horder
      cases before with
      | nil =>
        obtain ⟨rfl, -⟩ := List.cons_eq_cons.mp horder
        rw [List.append_nil]
        exact h.follows distinct hnext
      | cons first before =>
        obtain ⟨rfl, hrest⟩ := List.cons_eq_cons.mp horder
        rw [List.append_cons]
        exact ih (h.take distinct hnext) hrest

end Reached

end Waiting

theorem LeadsToCycle.of_startingAt {node : α} (h : LeadsToCycle (startingAt edges node) a) :
    LeadsToCycle edges a := by
  have hleads {b c : α} : Leads (startingAt edges node) b c → Leads edges b c := by
    rintro ⟨⟨deps, hmem, hc⟩, hne, hnode⟩
    exact ⟨⟨deps, mem_of_mem_startingAt hmem, hc⟩, hne,
      ((List.dropWhile_sublist _).map Prod.fst).subset hnode⟩
  obtain ⟨m, hto, hround⟩ := h
  exact ⟨m, hto.lift id fun _ _ => hleads, hround.lift id fun _ _ => hleads⟩

/-- The topological order has every node once. The node at each position is, of those that are ready
when the nodes before it have been taken, the one that became ready last, and if none is ready the
first that is left. A node that leads to no cycle comes after all that it depends on. -/
theorem topologicalOrder_follows (distinct : (edges.map Prod.fst).Nodup) :
    (topologicalOrder edges).Perm (edges.map Prod.fst) ∧
      (∀ taken next rest, topologicalOrder edges = taken ++ next :: rest →
        Follows edges taken next) ∧
      ∀ node d, ¬LeadsToCycle edges node → Leads edges node d →
        (topologicalOrder edges).idxOf d < (topologicalOrder edges).idxOf node := by
  refine ⟨topologicalOrder_perm distinct, fun taken next rest horder => ?_, fun node d hno hd => ?_⟩
  · have hfollows := (Waiting.start_reached distinct).order_follows distinct horder
    rwa [List.nil_append] at hfollows
  · have hle : ¬(topologicalOrder edges).idxOf node < (topologicalOrder edges).idxOf d := by
      rw [topologicalOrder_idxOf_lt_iff distinct hd]
      rintro hcycle
      obtain ⟨m, hto, hround⟩ := hcycle.of_startingAt
      exact hno ⟨m, .head hd hto, hround⟩
    have hmem : d ∈ topologicalOrder edges := by
      rw [(topologicalOrder_perm distinct).mem_iff]
      exact hd.2.2
    refine (Nat.le_of_not_lt hle).lt_of_ne fun heq => hd.2.1 ?_
    exact (List.idxOf_inj hmem).mp heq

/-- Of two nodes that wait for each other the first goes early, and then the last of those that it
makes ready. -/
theorem topologicalOrder_follows_mutual :
    let edges : List (ℕ × List ℕ) := [(1, [2]), (2, [1]), (3, [3, 1]), (4, [1, 5])]
    (edges.map Prod.fst).Nodup ∧ topologicalOrder edges = [1, 4, 3, 2] ∧ Follows edges [] 1 ∧
      Follows edges [1] 4 := by
  intro edges
  have distinct : (edges.map Prod.fst).Nodup := by decide
  have horder : topologicalOrder edges = [1, 4, 3, 2] := by decide
  obtain ⟨-, hfollows, -⟩ := topologicalOrder_follows distinct
  exact ⟨distinct, horder, hfollows [] 1 _ horder, hfollows [1] 4 _ horder⟩

end SchemaClasses.Graph
