import Vouch.Flow.Graph

/-!
# Topological Order

Nodes wait until all their predecessors have been taken, and among those that no
longer wait the one that stopped waiting first is taken first. If the graph has a
cycle, its nodes wait forever and there is no order.

## Main definitions

* `FlowGraph.topologicalOrder?`: All nodes in an order in which edges lead forward.
-/

namespace Vouch

namespace FlowGraph

/-- A topological sort in progress. -/
structure Sorting where
  /-- For each node, how many of its predecessors are not taken yet. -/
  waiting : List Nat
  /-- The nodes that wait for nothing, first come first served. -/
  ready : List Nat
  /-- The nodes taken, in order. -/
  taken : List Nat := []

namespace Sorting

/-- One predecessor of a node has been taken. -/
def release (s : Sorting) (v : Nat) : Sorting :=
  let left := s.waiting.getD v 0 - 1
  { s with
    waiting := s.waiting.set v left
    ready := if left = 0 then s.ready ++ [v] else s.ready }

/-- Take at most `fuel` nodes. -/
def run (g : FlowGraph) : (fuel : Nat) → Sorting → Sorting
  | 0, s => s
  | fuel + 1, s =>
    match s.ready with
    | [] => s
    | v :: rest =>
      run g fuel ((g.successors v).foldl release { s with ready := rest, taken := s.taken ++ [v] })

end Sorting

/-- Nothing is taken, and the nodes without predecessors are ready. -/
def startSorting (g : FlowGraph) : Sorting :=
  let waiting := g.nodes.map fun v => (g.predecessors v).length
  { waiting, ready := (waiting.zipIdx.filter (·.1 = 0)).map (·.2) }

/-- All nodes in an order in which every edge leads forward. -/
def topologicalOrder? (g : FlowGraph) : Option (List Nat) :=
  let s := Sorting.run g g.size g.startSorting
  if s.taken.length = g.size then some s.taken else none

end FlowGraph

end Vouch
