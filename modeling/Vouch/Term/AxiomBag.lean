import Vouch.Term.Basic

/-!
# Bags of Axioms

The axioms a term depends on hang on its nodes, and those axioms are terms with axioms
of their own. They are gathered in a fixed order, and an axiom that was in the bag
before is not followed again.

## Main definitions

* `AxiomBag`: Axioms in the order they were first met, each node once.
* `Term.collectAxioms`: Every axiom a term depends on.
-/

namespace Vouch

/-- Axioms in the order they were added, each node once. -/
structure AxiomBag where
  /-- The axioms in order. -/
  items : List Term := []
  /-- The identities of the axioms. -/
  seen : NodeSet := ∅
deriving Inhabited

namespace AxiomBag

/-- Whether this very node is in the bag. -/
def contains (bag : AxiomBag) (t : Term) : Bool :=
  bag.seen.contains t.ident

/-- Add an axiom, unless this very node is there. -/
def insert (bag : AxiomBag) (t : Term) : AxiomBag :=
  if bag.contains t then bag
  else { items := bag.items ++ [t], seen := bag.seen.insert t.ident }

/-- Add axioms from left to right, and say of each whether it was new. -/
def insertAll (bag : AxiomBag) : List Term → List Bool × AxiomBag
  | [] => ([], bag)
  | t :: ts =>
    let new := !bag.contains t
    let (news, bag) := (bag.insert t).insertAll ts
    (new :: news, bag)

/-- The number of axioms. -/
def length (bag : AxiomBag) : Nat :=
  bag.items.length

/-- Whether there are no axioms. -/
def isEmpty (bag : AxiomBag) : Bool :=
  bag.items.isEmpty

/-- A bag being filled, with the nodes passed so far. -/
structure Filling where
  bag : AxiomBag
  visited : NodeSet := ∅

mutual

/-- Add the axioms of a node and of everything below it. -/
def fill : Term → Filling → Filling
  | .node id _ cs as, s =>
    if s.visited.contains id then s
    else
      let (news, bag) := s.bag.insertAll as
      let s := { bag, visited := s.visited.insert id }
      fillMarked as news (fillList cs s)

/-- The same for a list of operands, from the last to the first. -/
def fillList : List Term → Filling → Filling
  | [], s => s
  | t :: ts, s => fill t (fillList ts s)

/-- The same for the marked items of a list, from the last to the first. -/
def fillMarked : List Term → List Bool → Filling → Filling
  | t :: ts, new :: news, s =>
    let s := fillMarked ts news s
    if new then fill t s else s
  | _, _, s => s

end

/-- Add every axiom attached to a node of the term, or to an axiom so met. -/
def collect (bag : AxiomBag) (t : Term) : AxiomBag :=
  (fill t { bag }).bag

end AxiomBag

namespace Term

/-- Every axiom the term depends on, each node once. -/
def collectAxioms (t : Term) : AxiomBag :=
  AxiomBag.collect {} t

end Term

end Vouch
