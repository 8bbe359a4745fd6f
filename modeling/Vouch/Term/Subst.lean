import Vouch.Names.FreshName
import Vouch.Names.NameMap
import Vouch.Term.FreeVars

/-!
# Substitution in Terms

Replacing free variables by terms, all of them at once. Every node is rebuilt once: what
became of it is remembered under its identity, so sharing survives, and a node none of
whose operands change is kept.

## Main definitions

* `Subst`: What to put for which name.
* `Subst.renameBinders`: Renames the variables that would capture.
* `Term.subst`: Substitution.
-/

namespace Vouch

/-- What to put for which name. -/
abbrev Subst := NameMap Term

namespace Subst

/-- The names that occur free in some replacement. -/
def incoming (σ : Subst) : List String :=
  σ.values.flatMap Term.freeVars

/-- Whether a quantifier binding these names hides a replaced name or would
    capture a variable of a replacement. -/
def meets (σ : Subst) (incoming names : List String) : Bool :=
  names.any fun n => σ.contains n || incoming.contains n

/-- Rename the variables of a quantifier that would capture an incoming name.
    `σ` grows by the renamings, and no new name is one of `taken`. -/
def renameBinders (incoming : List String) :
    List Term → List String → Subst → Fresh (List Term × Subst)
  | [], _, σ => return ([], σ)
  | v :: vs, taken, σ => do
    match v.name? with
    | some n =>
      if incoming.contains n then
        let name := freshNumbered n "$$q" taken
        let renamed ← Term.var name v.sort
        let (vs, σ) ← renameBinders incoming vs (name :: taken) (σ.insert n renamed)
        return (renamed :: vs, σ)
      else
        let (vs, σ) ← renameBinders incoming vs taken σ
        return (v :: vs, σ)
    | none =>
      let (vs, σ) ← renameBinders incoming vs taken σ
      return (v :: vs, σ)

end Subst

namespace Term

/-- Rebuilding with a memory of what became of each node. -/
abbrev Rebuilding := StateT (NodeMap Term) Fresh

mutual

/-- Substitute in a node, unless that was done before. -/
def substNode (σ : Subst) (incoming : List String) : Term → Rebuilding Term
  | node id h cs as => do
    if let some done := (← get)[id]? then
      return done
    let t := node id h cs as
    let result ←
      match t.name?.bind σ.find? with
      | some replacement => pure replacement
      | none =>
        if σ.meets incoming t.boundNames then
          -- The body gets a map of its own: hidden names no longer replaced,
          -- capturing binders renamed.
          let bodyNames := (cs.getLast?.map allNames).getD []
          let taken := bodyNames ++ incoming ++ σ.keys
          let (vars, inner) ←
            Subst.renameBinders incoming cs.dropLast taken (σ.eraseAll t.boundNames)
          let body ← substLast inner inner.incoming cs
          t.withChildren (vars ++ body.toList)
        else
          t.withChildren (← substNodes σ incoming cs)
    modify (·.insert id result)
    return result

/-- Substitute in a list of operands. -/
def substNodes (σ : Subst) (incoming : List String) : List Term → Rebuilding (List Term)
  | [] => return []
  | t :: ts => do
    let t ← substNode σ incoming t
    let ts ← substNodes σ incoming ts
    return t :: ts

/-- Substitute in the last of a list of operands, remembering nothing from
    outside. -/
def substLast (σ : Subst) (incoming : List String) : List Term → Fresh (Option Term)
  | [] => return none
  | t :: ts =>
    if ts.isEmpty then
      if σ.isEmpty then return some t
      else do
        let (t, _) ← (substNode σ incoming t).run ∅
        return some t
    else substLast σ incoming ts

end

/-- Replace free variables by terms, renaming binders that would capture. -/
def subst (t : Term) (σ : Subst) : Fresh Term :=
  if σ.isEmpty then return t
  else do
    let (t, _) ← (substNode σ σ.incoming t).run ∅
    return t

end Term

end Vouch
