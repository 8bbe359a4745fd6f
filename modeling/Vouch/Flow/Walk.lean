import Vouch.Flow.Reach

/-!
# Depth-First Walks

A walk from the entry that follows successors in order, enters each node once, and
leaves a node when all its successors have been dealt with. The nodes entered and not
left form the path from the entry to where the walk is, so the number of nodes bounds
its depth.

## Main definitions

* `FlowGraph.walk`: The walk from the entry.
* `FlowGraph.cut`: The graph without the edges that close cycles.
-/

namespace Vouch

namespace FlowGraph

/-- What a walk has seen. -/
structure Walk where
  /-- The nodes entered, the latest first. -/
  entered : List Nat := []
  /-- The nodes left, the latest first. -/
  left : List Nat := []
  /-- The edges that close a cycle, the latest first. -/
  closing : List (Nat × Nat) := []

/-- Enter a node with `path` leading to it, and deal with its successors. -/
def visit (g : FlowGraph) : (fuel : Nat) → (path : List Nat) → (v : Nat) → Walk → Walk
  | 0, _, _, w => w
  | fuel + 1, path, v, w =>
    let path := v :: path
    let w := (g.successors v).foldl
      (fun w u =>
        if path.contains u then { w with closing := (v, u) :: w.closing }
        else if w.entered.contains u then w
        else g.visit fuel path u w)
      { w with entered := v :: w.entered }
    { w with left := v :: w.left }

/-- The walk from the entry. -/
def walk (g : FlowGraph) : Walk :=
  match g.entry with
  | some v => g.visit g.size [] v {}
  | none => {}

end FlowGraph

/-- A graph without cycles. -/
structure LoopCut where
  /-- What is left of the graph. -/
  graph : FlowGraph
  /-- The edges that closed cycles, in the order they were found. -/
  backEdges : List (Nat × Nat)

namespace FlowGraph

/-- Remove the edges that close cycles, and the edges of nodes the entry does
    not reach. -/
def cut (g : FlowGraph) : LoopCut :=
  let w := g.walk
  { graph := g.filterEdges fun u v => w.entered.contains u && !w.closing.contains (u, v)
    backEdges := w.closing.reverse }

end FlowGraph

end Vouch
