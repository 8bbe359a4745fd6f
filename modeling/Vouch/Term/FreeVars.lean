import Vouch.Term.Basic

/-!
# Names in Terms

The walks over the graph remember what they have seen, so a shared subterm costs nothing
the second time. A subterm seen under a quantifier may have free variables that the
quantifier hides, so having seen it there says nothing about it elsewhere.

## Main definitions

* `Term.freeVars`: The names that occur free, in the order of the first occurrence.
* `Term.allNames`: The names that occur at all.
-/

namespace Vouch

namespace Term

/-- What a walk over a term has seen so far. -/
structure Scan where
  /-- Nodes that need no second visit. -/
  visited : NodeSet := ∅
  /-- Names found, in order. -/
  names : List String := []

namespace Scan

/-- Record a name, once. -/
def found (s : Scan) (name : String) : Scan :=
  if s.names.contains name then s else { s with names := s.names ++ [name] }

/-- Remember a node. -/
def mark (s : Scan) (id : NodeId) : Scan :=
  { s with visited := s.visited.insert id }

end Scan

mutual

/-- Record the names with a free occurrence, `bound` being the names bound by
    the quantifiers around. -/
def scanFree (bound : List String) : Term → Scan → Scan
  | node id h cs as, s =>
    if bound.isEmpty && s.visited.contains id then s
    else
      let s := if bound.isEmpty then s.mark id else s
      match (node id h cs as).name? with
      | some n => if bound.contains n then s else s.found n
      | none =>
        if h.op = .all then scanFreeLast (bound ++ (node id h cs as).boundNames) cs s
        else scanFreeList bound cs s

/-- The same for a list of operands, from left to right. -/
def scanFreeList (bound : List String) : List Term → Scan → Scan
  | [], s => s
  | t :: ts, s => scanFreeList bound ts (scanFree bound t s)

/-- The same for the last of a list of operands, the body of a quantifier. -/
def scanFreeLast (bound : List String) : List Term → Scan → Scan
  | [], s => s
  | t :: ts, s => if ts.isEmpty then scanFree bound t s else scanFreeLast bound ts s

end

/-- The names with a free occurrence, in the order of the first one. -/
def freeVars (t : Term) : List String :=
  (scanFree [] t {}).names

mutual

/-- Record every variable name reachable through operands. -/
def scanNames : Term → Scan → Scan
  | node id h cs as, s =>
    if s.visited.contains id then s
    else
      let s := s.mark id
      let s := match (node id h cs as).name? with
        | some n => s.found n
        | none => s
      scanNamesList cs s

/-- The same for a list of operands. -/
def scanNamesList : List Term → Scan → Scan
  | [], s => s
  | t :: ts, s => scanNamesList ts (scanNames t s)

end

/-- The names with an occurrence, bound or free. -/
def allNames (t : Term) : List String :=
  (scanNames t {}).names

end Term

end Vouch
