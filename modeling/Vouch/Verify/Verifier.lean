import Vouch.Condition.Basic
import Vouch.Prover.Session
import Vouch.Verify.Prepare
import Vouch.Verify.Report

/-!
# Verifying Routines

A verifier keeps a session for one program at a time. Installing a program makes its
axioms the global axioms of the session; after that its prepared routines can be checked
one by one, each in a scope that holds the axioms its condition depends on.

## Main definitions

* `Verifier.install`: Takes over a program.
* `Verifier.verify`: Checks one prepared routine.
* `Verifier.run`: Processes a program and checks its routines.
-/

namespace Vouch

/-- A session with what is needed to check routines. -/
structure Verifier (ω β : Type) where
  prover : Prover ω β
  style : ConditionStyle
  /-- The declarations of the program that was installed. -/
  scope : Scope := .ofProgram {}
  session : Session ω β

/-- What is done with a verifier. -/
abbrev VerifierM (ω β : Type) := ExceptT VerifyError (StateM (Verifier ω β))

namespace Verifier

variable {ω β α : Type}

/-- Act on the session. -/
def inSession (m : StateM (Session ω β) α) : VerifierM ω β α := fun v =>
  let (a, session) := m.run v.session
  (.ok a, { v with session })

/-- Build terms from the supply of the session. -/
def build (m : Fresh (Except VerifyError α)) : VerifierM ω β α := do
  let r ← inSession (Session.inWorld (World.build m))
  liftExcept r

/-- A verifier whose prover has been started. -/
def init (prover : Prover ω β) (style : ConditionStyle) (world : World ω) : Verifier ω β :=
  let (_, session) := (Session.start prover).run { world }
  { prover, style, session }

/-- Replace the prover if the session failed. -/
def revive (prover : Prover ω β) : StateM (Session ω β) Unit := do
  if (← get).phase.isFailed then Session.restart prover

/-- Make the given terms the global axioms, or have none if they cannot be
    told to the prover. -/
def setGlobals (prover : Prover ω β) (terms : List Term) : StateM (Session ω β) Unit := do
  revive prover
  match ← (Session.clearGlobals prover).run with
  | .ok () => pure ()
  | .error _ => Session.restart prover
  match ← (terms.forM (Session.assume prover)).run with
  | .ok () => pure ()
  | .error _ =>
    -- A failed session only forgets the terms on its own side.
    let _ ← (Session.clearGlobals prover).run
    Session.restart prover

/-- Take over the declarations and the axioms of a program. -/
def install (p : Program) : VerifierM ω β Unit := do
  let axioms ← build p.axiomTerms
  modifyThe (Verifier ω β) fun v => { v with scope := .ofProgram p }
  inSession (setGlobals (← getThe (Verifier ω β)).prover axioms)

/-- Prepare a program and install it. -/
def process (p : Program) : VerifierM ω β Program := do
  let prepared ← liftExcept p.prepare
  install p
  return prepared

/-- The condition of a prepared routine: that of its body without the edges
    that close cycles. -/
def condition (style : ConditionStyle) (scope : Scope) (r : Routine) :
    Fresh (Except VerifyError Term) := do
  match FlowGraph.ofBody r.body with
  | .error e => return .error (.flow e)
  | .ok g =>
    let c : Condition := { style with theory := .standard, scope := scope.enter r }
    return (← (c.compute r.name r.body g.cut.graph).runFresh).mapError .condition

/-- Ask whether a condition is valid, under the axioms that it depends on. -/
def query (prover : Prover ω β) (vc : Term) : SessionM ω β Bool := do
  vc.collectAxioms.items.forM (Session.assume prover)
  Session.isValid prover vc

/-- The answer to a condition, or none if the prover failed, which is then
    replaced. -/
def check (prover : Prover ω β) (vc : Term) : StateM (Session ω β) (Option Bool) := do
  revive prover
  match ← (Session.withScope prover (query prover vc)).run with
  | .ok valid => return some valid
  | .error _ =>
    Session.restart prover
    return none

/-- Check one prepared routine. -/
def verify (r : Routine) : VerifierM ω β Verdict := do
  let v ← getThe (Verifier ω β)
  let vc ← build (condition v.style v.scope r)
  return .ofAnswer (← inSession (check v.prover vc))

/-- Check one prepared routine and report on it. -/
def report (r : Routine) : VerifierM ω β RoutineReport := do
  return { name := r.name, verdict := ← verify r, location := r.location }

/-- Process a program and check its routines in order. -/
def run (p : Program) : VerifierM ω β Report := do
  let prepared ← process p
  let routines ← prepared.routines.mapM report
  return { routines, degraded := (← getThe (Verifier ω β)).session.degraded }

/-- Stop the prover. -/
def terminate (v : Verifier ω β) : Verifier ω β :=
  let (_, session) := (Session.terminate v.prover).run v.session
  { v with session }

end Verifier

end Vouch
