import Vouch.Term.Basic

/-!
# Rebuilding Every Node Once

Bottom-up rebuilding of terms that may share nodes. A visiting function turns a node and
its rebuilt operands into a result; a second function decides whether the operands of a
node are entered at all.

## Main definitions

* `Term.rebuildAll`: Rebuilds a list of terms.
-/

namespace Vouch

namespace Term

variable {m : Type → Type} [Monad m]

mutual

/-- Rebuild a node, unless that was done before. -/
def rebuildNode (descend : Term → Bool) (visit : Term → List Term → m Term) :
    Term → StateT (NodeMap Term) m Term
  | node id h cs as => do
    if let some done := (← get)[id]? then
      return done
    let t := node id h cs as
    let operands ← if descend t then rebuildNodes descend visit cs else pure cs
    let result ← visit t operands
    modify (·.insert id result)
    return result

/-- Rebuild a list of operands from left to right. -/
def rebuildNodes (descend : Term → Bool) (visit : Term → List Term → m Term) :
    List Term → StateT (NodeMap Term) m (List Term)
  | [] => return []
  | t :: ts => do
    let t ← rebuildNode descend visit t
    let ts ← rebuildNodes descend visit ts
    return t :: ts

end

/-- Rebuild several terms, visiting each node once. -/
def rebuildAll (descend : Term → Bool) (visit : Term → List Term → m Term) (roots : List Term) :
    m (List Term) := do
  let (results, _) ← (rebuildNodes descend visit roots).run ∅
  return results

/-- Rebuild one term, visiting each node once. -/
def rebuild (descend : Term → Bool) (visit : Term → List Term → m Term) (root : Term) :
    m Term := do
  let (result, _) ← (rebuildNode descend visit root).run ∅
  return result

end Term

end Vouch
