import Vouch.Term.AxiomBag
import Vouch.Term.Rebuild
import Vouch.Term.Theory

/-!
# Removing Sharing

The prover reads trees. Writing a graph as a tree repeats every shared part, which can
blow up exponentially, so shared nodes are named: a node reached by two or more edges
becomes a variable, and a definition says what the variable stands for.

## Main definitions

* `Term.parentEdges`: How many edges reach each node.
* `Theory.unshareAll`: Terms without sharing, and the definitions.
-/

namespace Vouch

/-- What the names of variables for shared nodes start with. -/
def shareName : String := "share"

namespace Term

/-- Edges counted so far, with the nodes whose operands were counted. -/
structure EdgeCount where
  counts : NodeMap Nat := ∅
  visited : NodeSet := ∅

namespace EdgeCount

/-- Count one more edge to a node. -/
def reach (c : EdgeCount) (t : Term) : EdgeCount :=
  { c with counts := c.counts.insert t.ident (c.counts.getD t.ident 0 + 1) }

end EdgeCount

mutual

/-- Count the edges below a node, unless that was done before. -/
def countBelow : Term → EdgeCount → EdgeCount
  | node id h cs _, c =>
    if c.visited.contains id then c
    else
      let c := { c with visited := c.visited.insert id }
      if h.op = .all then c else countEdges cs c

/-- Count an edge to each of the nodes, and the edges below them. -/
def countEdges : List Term → EdgeCount → EdgeCount
  | [], c => c
  | t :: ts, c => countEdges ts (countBelow t (c.reach t))

end

/-- How many edges reach each node of the terms, each term counting as the
    target of one edge. Quantifier bodies are not entered. -/
def parentEdges (roots : List Term) : NodeMap Nat :=
  (countEdges roots {}).counts

/-- Whether naming the node could save anything. -/
def isShareable (t : Term) : Bool :=
  !t.op.isLeaf && t.op != .tuple

end Term

/-- Terms after sharing was removed. -/
structure Unshared where
  /-- The terms, with a variable for every shared node. -/
  terms : List Term
  /-- What each variable stands for, inner nodes first. -/
  definitions : List Term
  /-- The definitions and then every axiom of the terms. -/
  axioms : List Term

namespace Theory

/-- Put a variable for a node that is shared, and record its definition. -/
def nameShared (th : Theory) (edges : NodeMap Nat) (t : Term) (children : List Term) :
    StateT (List Term) Fresh Term := do
  let rebuilt ← t.withChildren children
  if t.isShareable && 2 ≤ edges.getD t.ident 0 then
    let v ← Term.freshVar shareName t.sort
    let definition ← th.define v rebuilt
    modify (· ++ [definition])
    return v
  else
    return rebuilt

/-- Remove sharing within and between terms. -/
def unshareAll (th : Theory) (terms : List Term) : Fresh Unshared := do
  let edges := Term.parentEdges terms
  let (rebuilt, definitions) ←
    (Term.rebuildAll (·.op != .all) (th.nameShared edges) terms).run []
  let bag := terms.foldl AxiomBag.collect {}
  return { terms := rebuilt, definitions, axioms := definitions ++ bag.items }

/-- Remove sharing within a term. -/
def unshare (th : Theory) (t : Term) : Fresh Unshared :=
  th.unshareAll [t]

end Theory

namespace Unshared

/-- The first of the terms, or the given one if there is none. -/
def termOr (u : Unshared) (t : Term) : Term :=
  u.terms.head?.getD t

end Unshared

end Vouch
