import Vouch.Flow.Component

/-!
# Forgetting What Loops Write

Before each loop entry and header a `havoc` of the loop's writes is inserted.
Afterwards the edges that close cycles can be cut: what another iteration
could change has been forgotten already. The inserted command takes over the labels
of the command it precedes, so that every jump to the loop now passes through it.

## Main definitions

* `FlowGraph.insertHavocs`: A body in which loops forget what they write.
-/

namespace Vouch

/-- A body in which loops forget what they write. -/
structure Havocked where
  body : Body
  graph : FlowGraph
  /-- How many commands were inserted. -/
  inserted : Nat
  /-- The commands of the old body that the entry does not reach. -/
  unreachable : List Nat

namespace LoopAnalysis

/-- What stands for a command: the command itself, after a `havoc` if there is
    something to forget before it. -/
def expand (a : LoopAnalysis) (c : Command) (node : Nat) : List Command :=
  match a.havocSet? node with
  | some vars => [{ labels := c.labels, action := .havoc vars.toList }, { action := c.action }]
  | none => [c]

/-- The number of nodes that get a `havoc`. -/
def inserted (a : LoopAnalysis) (body : Body) : Nat :=
  ((List.range body.length).filter fun v => (a.havocSet? v).isSome).length

end LoopAnalysis

namespace FlowGraph

/-- Insert a `havoc` before every loop entry and header whose loop writes
    something. -/
def insertHavocs (g : FlowGraph) (body : Body) (s : Scope) : Except FlowError Havocked := do
  let a := g.analyseLoops body s
  let commands : Body := body.zipIdx.flatMap fun (c, node) => a.expand c node
  let inserted := a.inserted body
  let graph ← if inserted = 0 then pure g else ofBody commands
  return { body := commands, graph, inserted, unreachable := a.unreachable }

end FlowGraph

end Vouch
