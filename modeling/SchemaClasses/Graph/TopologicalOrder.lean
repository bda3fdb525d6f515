import SchemaClasses.Ordered

/-!
# Topological order

Nodes with the nodes they depend on, in an order in which dependencies come first. Among the nodes
that are ready, the one that became ready last is next, and of several that became ready at the same
step the last inserted. When every node left waits for another, the first inserted goes next as if
it were ready. A node does not wait for itself or for a node that is not in the graph.
-/

namespace SchemaClasses.Graph

variable {α : Type} [DecidableEq α]

/-- The nodes not yet in the order, each with what it still waits for, and those of them that are
ready, the next first. -/
structure Waiting (α : Type) where
  remaining : List (α × List α)
  ready : List α

namespace Waiting

/-- The nodes of a graph before any of them is taken. -/
def start (edges : List (α × List α)) : Waiting α :=
  let isNode (a : α) : Bool := edges.any fun edge => edge.1 = a
  let remaining := edges.map fun edge =>
    (edge.1, edge.2.filter fun d => d ≠ edge.1 && isNode d)
  ⟨remaining, ((remaining.filter fun edge => edge.2.isEmpty).map Prod.fst).reverse⟩

/-- The node that goes next. -/
def next? (waiting : Waiting α) : Option α :=
  match waiting.ready with
  | node :: _ => some node
  | [] => waiting.remaining.head?.map Prod.fst

/-- Takes a node: no other node waits for it any more. -/
def take (waiting : Waiting α) (node : α) : Waiting α :=
  let others := waiting.remaining.filter fun edge => edge.1 ≠ node
  let left := others.map fun edge => (edge.1, edge.2.filter (· ≠ node), edge.2.contains node)
  let freed := left.filter fun edge => edge.2.2 && edge.2.1.isEmpty
  { remaining := left.map fun edge => (edge.1, edge.2.1)
    ready := (freed.map (·.1)).reverse ++ waiting.ready.drop 1 }

/-- At most `limit` nodes in order. -/
def order : Nat → Waiting α → List α
  | 0, _ => []
  | limit + 1, waiting =>
    match waiting.next? with
    | none => []
    | some node => node :: order limit (waiting.take node)

end Waiting

/-- The nodes of a graph, dependencies first. Each node is listed once in the graph. -/
def topologicalOrder (edges : List (α × List α)) : List α :=
  (Waiting.start edges).order edges.length

end SchemaClasses.Graph
