import Std.Data.TreeMap
import Vouch.Flow.Walk
import Vouch.Lang.Frame

/-!
# Loops of a Flow Graph

The loops of a body are the strongly connected components with more than one node,
entered at the nodes with a predecessor outside, and the natural loops of the edges that
close cycles, since a loop inside another one is in the same component.

## Main definitions

* `FlowGraph.components`: The strongly connected components.
* `FlowGraph.naturalLoop`: The natural loop of a header.
* `FlowGraph.analyseLoops`: The loops of a body and what they write.
* `LoopAnalysis.havocSet?`: What to forget before a node.
-/

namespace Vouch

/-- A component being collected. -/
structure Sweep where
  /-- The component of each node that has one. -/
  ofNode : Std.TreeMap Nat Nat
  /-- The nodes with a predecessor in another component. -/
  entryPoints : Nodes
  /-- The nodes of the component that have still to be looked at. -/
  todo : List Nat
  /-- The nodes of the component that have been looked at, the latest first. -/
  members : List Nat := []

namespace Sweep

/-- Look at what comes before the node `v` of the component `k`: a node without
    a component joins this one, and if it is in another one, `v` is an entry
    point. -/
def meet (k v : Nat) (s : Sweep) (u : Nat) : Sweep :=
  match s.ofNode[u]? with
  | none => { s with ofNode := s.ofNode.insert u k, todo := u :: s.todo }
  | some j => if j = k then s else { s with entryPoints := s.entryPoints.insert v }

/-- Look at a node of the component `k`. -/
def look (before : Nat → List Nat) (k v : Nat) (s : Sweep) : Sweep :=
  (before v).foldl (meet k v) { s with members := v :: s.members }

/-- Collect the component `k`, looking at most at `fuel` nodes. -/
def run (before : Nat → List Nat) (k : Nat) : (fuel : Nat) → Sweep → Sweep
  | 0, s => s
  | fuel + 1, s =>
    match s.todo with
    | [] => s
    | v :: todo => run before k fuel (look before k v { s with todo })

end Sweep

/-- The strongly connected components of the reachable part of a graph. -/
structure Components where
  /-- The component of each node that has one. -/
  ofNode : Std.TreeMap Nat Nat := ∅
  /-- The nodes with a predecessor in another component. -/
  entryPoints : Nodes := ∅
  /-- The nodes of each component. -/
  parts : List (List Nat) := []

namespace Components

/-- The component of a node, if the entry reaches it. -/
def component? (c : Components) (v : Nat) : Option Nat :=
  c.ofNode[v]?

/-- The number of components. -/
def count (c : Components) : Nat :=
  c.parts.length

/-- The nodes of a component. -/
def members (c : Components) (k : Nat) : List Nat :=
  c.parts.getD k []

/-- Collect the component of a node that has none, looking at most at `fuel`
    nodes. -/
def sweep (before : Nat → List Nat) (fuel : Nat) (c : Components) (root : Nat) : Sweep :=
  Sweep.run before c.count fuel
    { ofNode := c.ofNode.insert root c.count, entryPoints := c.entryPoints, todo := [root] }

/-- The components and one more, which has been collected. -/
def grow (c : Components) (s : Sweep) : Components :=
  { ofNode := s.ofNode, entryPoints := s.entryPoints, parts := c.parts ++ [s.members] }

/-- Add the component of a node, unless the node has one. -/
def add (before : Nat → List Nat) (fuel : Nat) (c : Components) (root : Nat) : Components :=
  if c.ofNode.contains root then c else c.grow (c.sweep before fuel root)

end Components

namespace FlowGraph

/-- The strongly connected components, collected in the opposite of the order in
    which the walk leaves nodes. -/
def components (g : FlowGraph) : Components :=
  let order := g.walk.left
  let found : Nodes := .ofList order
  let table := g.predecessorTable
  let before := fun v => (table.getD v []).filter found.contains
  order.foldl (Components.add before g.size) {}

/-- The targets of the edges that close cycles, in increasing order. -/
def loopHeaders (g : FlowGraph) (closing : List (Nat × Nat)) : List Nat :=
  g.nodes.filter fun v => closing.any (·.2 == v)

/-- The natural loop of a header: the header and every node that reaches one
    of its closing edges without passing through it. What comes before a node
    is looked up in `before`. -/
def naturalLoop (g : FlowGraph) (closing : List (Nat × Nat)) (before : Nat → List Nat)
    (header : Nat) : List Nat :=
  let latches := ((closing.filter (·.2 == header)).map (·.1)).filter (· != header)
  let found := explore before g.size latches (.ofList (header :: latches))
  g.nodes.filter fun v => found.contains v

end FlowGraph

/-- The loops of a body and what they write. -/
structure LoopAnalysis where
  components : Components
  /-- What the commands of each component may write. -/
  writes : List NameSet
  /-- The nodes with a reachable predecessor in another component. -/
  entryPoints : List Nat
  /-- The headers with what their natural loops may write. -/
  headers : List (Nat × NameSet)
  /-- The nodes the entry does not reach. -/
  unreachable : List Nat

namespace Scope

/-- What the commands at some nodes may write. -/
def writesAt (s : Scope) (body : Body) (nodes : List Nat) : NameSet :=
  let commands := body.toArray
  (nodes.filterMap (commands[·]?)).foldl (fun acc c => acc.union (s.writes c)) ∅

end Scope

namespace FlowGraph

/-- Find the loops of a body with the given graph. -/
def analyseLoops (g : FlowGraph) (body : Body) (s : Scope) : LoopAnalysis :=
  let comps := g.components
  let closing := g.cut.backEdges
  let table := g.predecessorTable
  let before := fun v => table.getD v []
  let found : Nodes := .ofList g.walk.left
  { components := comps
    writes := (List.range comps.count).map fun k => s.writesAt body (comps.members k)
    entryPoints := g.nodes.filter comps.entryPoints.contains
    headers := (g.loopHeaders closing).map fun h =>
      (h, s.writesAt body (g.naturalLoop closing before h))
    unreachable := g.nodes.filter fun v => !found.contains v }

end FlowGraph

namespace LoopAnalysis

/-- The number of nodes of a component. -/
def size (a : LoopAnalysis) (k : Nat) : Nat :=
  (a.components.members k).length

/-- What to forget before an entry of a component that is a loop. -/
def entryHavoc? (a : LoopAnalysis) (v : Nat) : Option NameSet := do
  guard (a.entryPoints.contains v)
  let k ← a.components.component? v
  let writes ← a.writes[k]?
  guard (1 < a.size k && !writes.isEmpty)
  return writes

/-- What to forget before a header. -/
def headerHavoc? (a : LoopAnalysis) (v : Nat) : Option NameSet := do
  let writes ← a.headers.lookup v
  guard (!writes.isEmpty)
  return writes

/-- What to forget before a node, if anything: all that its component writes
    at the entry of a loop, and otherwise all that its natural loop writes. -/
def havocSet? (a : LoopAnalysis) (v : Nat) : Option NameSet :=
  (a.entryHavoc? v).orElse fun _ => a.headerHavoc? v

/-- Whether exactly the reachable nodes have a component, and exactly the
    others are listed as unreachable. -/
def isConsistent (a : LoopAnalysis) (g : FlowGraph) : Bool :=
  let found := g.fromEntry
  g.nodes.all fun v =>
    let inComponent := (a.components.component? v).isSome
    let listed := a.unreachable.contains v
    if found.contains v then inComponent && !listed else !inComponent && listed

end LoopAnalysis

end Vouch
