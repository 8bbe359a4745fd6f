import Vouch.Condition.Encode
import Vouch.Contract.Routine
import Vouch.Flow.LoopHavoc
import Vouch.Term.AxiomBag
import Vouch.Verify.Error

/-!
# Preparing a Program

Three things happen to a routine before its verification condition can be
computed. Loops forget what they write, calls are replaced by what the callee
promises, and the routine's own contract becomes part of its body. Loops come
first, because what a call may write is known from the call and not from what
replaces it.

## Main definitions

* `Program.prepare`: A program with its routines prepared.
* `Program.axiomTerms`: Its axioms, each after the axioms of the operators it uses.
-/

namespace Vouch

namespace Scope

/-- Prepare a routine, given the declarations of its program. -/
def prepare (s : Scope) (r : Routine) : Except VerifyError Routine := do
  let scope := s.enter r
  let graph ← (FlowGraph.ofBody r.body).mapError .flow
  let havocked ← (graph.insertHavocs r.body scope).mapError .flow
  let body ← (scope.expandCalls havocked.body).mapError .contract
  let expanded := { r with body }
  match s.procedure? r.name with
  | some p => (expanded.inlineContract p).mapError .contract
  | none => return expanded

end Scope

namespace Program

/-- Prepare every routine. A fault in one of them is a fault of the program. -/
def prepare (p : Program) : Except VerifyError Program := do
  return { p with routines := ← p.routines.mapM (Scope.ofProgram p).prepare }

/-- Encode axioms one after the other into a bag. -/
def encodeAxioms (c : Encoding) : List Expr → AxiomBag → Encode AxiomBag
  | [], bag => return bag
  | e :: es, bag => do
    let t ← c.formula e
    encodeAxioms c es ((bag.collect t).insert t)

/-- The axioms of a program, each after the axioms of its operators. -/
def axiomTerms (p : Program) : Fresh (Except VerifyError (List Term)) := do
  let c : Encoding := { theory := .standard, scope := .ofProgram p }
  let bag ← (encodeAxioms c p.axioms {}).runFresh
  return (bag.map AxiomBag.items).mapError .condition

end Program

end Vouch
