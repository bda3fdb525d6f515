import SchemaClasses.Ordered

/-!
# Reachable nodes

The nodes that can be reached from a node along edges, nearest first: the node itself, then what
each node found so far leads to, in the order of its edges.
-/

namespace SchemaClasses.Graph

variable {α : Type} [DecidableEq α]

def fresh (found targets : List α) : List α :=
  (Ordered.ofList targets).filter (· ∉ found)

/-- The nodes found, followed by what the nodes in the queue lead to; at most `limit` nodes are
taken from the queue. -/
def exploreFrom (targets : α → List α) : Nat → List α → List α → List α
  | 0, found, _ => found
  | _, found, [] => found
  | limit + 1, found, node :: queue =>
    let new := fresh found (targets node)
    exploreFrom targets limit (found ++ new) (queue ++ new)

/-- The nodes reachable from `start` in a graph on the numbers that index `edges`. Every node but
the first is the target of an edge, which bounds how many there are. -/
def reachable (edges : List (List Nat)) (start : Nat) : List Nat :=
  exploreFrom (fun node => (edges[node]?).getD []) (1 + edges.flatten.length) [start] [start]

end SchemaClasses.Graph
