import Vouch.Contract.Call

/-!
# A Routine's Own Contract

What a contract promises to callers, the routine has to deliver. Its preconditions are
assumed first, and its postconditions are asserted in a block at the end, where jumps
that would leave the routine go instead.

## Main definitions

* `Routine.exitBlock`: The block at the end.
* `Routine.inlineContract`: A routine with its contract in its body.
-/

namespace Vouch

/-- The label of the block of postconditions. -/
def exitLabel : String := "$$exit"

namespace Procedure

/-- The routine's parameters for the contract's, where the names differ. -/
def formalSubst (p : Procedure) (r : Routine) : NameMap Expr :=
  let pairs := p.args.zip r.args ++ p.results.zip r.results
  .ofList ((pairs.filter fun (formal, actual) => formal.name != actual.name).map
    fun (formal, actual) => (formal.name, Expr.var actual.name))

end Procedure

namespace Command

/-- Send a jump that leaves the routine to the exit block. -/
def toExit (c : Command) : Command :=
  match c.action with
  | .goto [] => { c with action := .goto [exitLabel] }
  | _ => c

end Command

namespace Routine

/-- The postconditions as assertions, the first one with the exit label. -/
def exitBlock (posts : List Expr) : List Command :=
  match posts.map Command.assert with
  | [] => []
  | c :: cs => c.labelled exitLabel :: cs

/-- Put the contract into the body: preconditions are assumed at the entry,
    and postconditions are asserted at every exit. A contract without either
    changes nothing and is not compared with the routine. -/
def inlineContract (r : Routine) (p : Procedure) : Except ContractError Routine := do
  if p.requires.isEmpty && p.ensures.isEmpty then return r
  p.checkArity .arguments r.args.length
  p.checkArity .results r.results.length
  let σ := p.formalSubst r
  let entry := p.requires.map fun e => Command.assume (e.subst σ)
  let code := if p.ensures.isEmpty then r.body else r.body.map Command.toExit
  return { r with body := entry ++ code ++ exitBlock (p.ensures.map (Expr.subst σ)) }

end Routine

end Vouch
