import Std.Data.TreeSet
import Vouch.Flow.Graph

/-!
# Reachability

A search keeps the nodes it has found and the ones among them it has still to look
at. A node is looked at once, so looking at as many nodes as the graph has is enough.

## Main definitions

* `explore`: The search.
* `FlowGraph.reachFrom`: The nodes reachable from a node.
-/

namespace Vouch

/-- Sets of nodes of a flow graph. -/
abbrev Nodes := Std.TreeSet Nat

/-- Extend the nodes found by everything reachable from those in `todo`, which
    are already among them. At most `fuel` nodes are looked at. -/
def explore (next : Nat → List Nat) : (fuel : Nat) → (todo : List Nat) → (found : Nodes) → Nodes
  | 0, _, found => found
  | _ + 1, [], found => found
  | fuel + 1, v :: todo, found =>
    let new := (next v).filter fun w => !found.contains w
    explore next fuel (new ++ todo) (found.insertMany new)

namespace FlowGraph

/-- The nodes reachable from a node, itself included. -/
def reachFrom (g : FlowGraph) (v : Nat) : Nodes :=
  explore g.successors g.size [v] (.ofList [v])

/-- The nodes the entry reaches. -/
def fromEntry (g : FlowGraph) : Nodes :=
  match g.entry with
  | some v => g.reachFrom v
  | none => ∅

/-- Whether the entry reaches each node. -/
def reachable (g : FlowGraph) : List Bool :=
  let found := g.fromEntry
  g.nodes.map fun v => found.contains v

/-- The nodes the entry does not reach, in increasing order. -/
def unreachable (g : FlowGraph) : List Nat :=
  let found := g.fromEntry
  g.nodes.filter fun v => !found.contains v

end FlowGraph

end Vouch
