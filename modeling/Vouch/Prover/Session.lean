import Vouch.Prover.Basic

/-!
# Sessions

A session is a prover together with what it has been told. Closing a scope retracts what
was assumed in it; what is assumed outside of every scope is a global axiom, and a new
prover is told these. Without a prover a session accepts everything and is degraded.

## Main definitions

* `Session`: A prover and what it has been told.
* `Session.launch`: Starts a prover and tells it the global axioms.
* `Session.withScope`: Does something in a scope of its own.
* `Session.restart`: Replaces the prover.
-/

namespace Vouch

/-- Who answers the questions of a session. -/
inductive Backend (β : Type)
  /-- A prover that was started. -/
  | prover (b : β)
  /-- Nobody: every question is answered yes. -/
  | nobody

/-- Where a session stands. -/
inductive Phase (β : Type)
  | uninitialized
  | started (backend : Backend β)
  | failed (backend : Backend β)

namespace Phase

variable {β : Type}

/-- Who answers, or answered before the failure. -/
def backend? : Phase β → Option (Backend β)
  | uninitialized => none
  | started b | failed b => some b

/-- Whether the session failed. -/
def isFailed : Phase β → Bool
  | failed _ => true
  | _ => false

/-- The name of the phase. -/
def name : Phase β → String
  | uninitialized => "Uninitialized"
  | started _ => "Started"
  | failed _ => "Failed"

end Phase

/-- How often scopes were opened and closed and the prover replaced. -/
structure ScopeCounts where
  pushes : Nat := 0
  pops : Nat := 0
  restarts : Nat := 0
deriving DecidableEq

/-- A prover and what it has been told. -/
structure Session (ω β : Type) where
  world : World ω
  phase : Phase β := .uninitialized
  /-- What is assumed outside of every scope, oldest first. -/
  globals : List Term := []
  /-- The open scopes, innermost first, each with its oldest term first. -/
  scopes : List (List Term) := []
  /-- Whether questions are answered without proof. -/
  degraded : Bool := false
  counts : ScopeCounts := {}

/-- What is done with a session. -/
abbrev SessionM (ω β : Type) := ExceptT ProverError (StateM (Session ω β))

namespace Backend

variable {ω β : Type}

/-- Stop whoever answers. -/
def terminate (prover : Prover ω β) : Backend β → StateM (World ω) Unit
  | .prover b => prover.terminate b
  | .nobody => return

end Backend

namespace Session

variable {ω β α : Type}

/-- The number of open scopes. -/
def depth (s : Session ω β) : Nat := s.scopes.length

/-- Act on the world of a session. -/
def inWorld (m : StateM (World ω) α) : StateM (Session ω β) α := fun s =>
  let (a, world) := m.run s.world
  (a, { s with world })

/-- Note that the session failed. -/
def fail (s : Session ω β) : Session ω β :=
  match s.phase with
  | .started b => { s with phase := .failed b }
  | _ => s

/-- Pass on an outcome; a fatal failure is one of the session, too. -/
def track (outcome : Except ProverError α) : SessionM ω β α := do
  match outcome with
  | .ok a => return a
  | .error e =>
    if e.isFatal then modifyThe (Session ω β) fail
    throw e

/-- Ask whoever answers. -/
def ask (default : α) (question : ProverM ω β α) : Backend β → SessionM ω β α
  | .nobody => return default
  | .prover b => do
    let (outcome, b) ← ExceptT.lift (inWorld (question.run.run b))
    modifyThe (Session ω β) fun s => { s with phase := .started (.prover b) }
    track outcome

/-- Whoever answers, if the session can be used. -/
def live : SessionM ω β (Backend β) := do
  match (← getThe (Session ω β)).phase with
  | .uninitialized => throw .notStarted
  | .failed _ => throw .sessionFailed
  | .started b => return b

/-- Go on without a prover. -/
def fallBack (s : Session ω β) : Session ω β :=
  { s with phase := .started .nobody, degraded := true }

/-- Tell a prover a list of terms, up to the first that it does not take. -/
def tell (prover : Prover ω β) (terms : List Term) : ProverM ω β Unit :=
  terms.forM prover.assume

/-- Start a prover and tell it the global axioms. -/
def launch (prover : Prover ω β) : StateM (Session ω β) Unit := do
  match ← inWorld prover.start with
  | .error _ => modify fallBack
  | .ok b =>
    let (told, b) ← inWorld ((tell prover (← get).globals).run.run b)
    match told with
    | .ok () =>
      modify fun s => { s with phase := .started (.prover b), degraded := prover.isStub b }
    | .error _ =>
      inWorld (prover.terminate b)
      modify fallBack

/-- Start the prover unless that was done. -/
def start (prover : Prover ω β) : StateM (Session ω β) Unit := do
  match (← get).phase with
  | .started _ => return
  | _ => launch prover

/-- Open a scope. -/
def push : SessionM ω β Unit := do
  let _ ← live
  modifyThe (Session ω β) fun s =>
    { s with scopes := [] :: s.scopes, counts := { s.counts with pushes := s.counts.pushes + 1 } }

/-- Retract as many assumptions as there are terms, if the prover is there. -/
def retractAll (prover : Prover ω β) (terms : List Term) : SessionM ω β Unit := do
  match (← getThe (Session ω β)).phase with
  | .started b => ask () (terms.forM fun _ => prover.retract) b
  | _ => return

/-- Close the innermost scope and retract what was assumed in it. -/
def pop (prover : Prover ω β) : SessionM ω β Unit := do
  let s ← getThe (Session ω β)
  match s.scopes with
  | [] => throw .scopeUnderflow
  | scope :: scopes =>
    set { s with scopes, counts := { s.counts with pops := s.counts.pops + 1 } }
    retractAll prover scope

/-- Add an assumption to the innermost scope, or to the globals. -/
def record (t : Term) (s : Session ω β) : Session ω β :=
  match s.scopes with
  | [] => { s with globals := s.globals ++ [t] }
  | scope :: scopes => { s with scopes := (scope ++ [t]) :: scopes }

/-- Assume a term until the innermost scope is closed. -/
def assume (prover : Prover ω β) (t : Term) : SessionM ω β Unit := do
  ask () (prover.assume t) (← live)
  modifyThe (Session ω β) (record t)

/-- Whether a term is valid under what is assumed. -/
def isValid (prover : Prover ω β) (t : Term) : SessionM ω β Bool := do
  ask true (prover.isValid t) (← live)

/-- Close a number of scopes. All are closed whatever fails; the last failure
    is the one that is reported. -/
def popMany (prover : Prover ω β) : Nat → Except ProverError Unit →
    StateM (Session ω β) (Except ProverError Unit)
  | 0, closed => return closed
  | n + 1, closed => do
    match ← (pop prover).run with
    | .ok () => popMany prover n closed
    | .error e => popMany prover n (.error e)

/-- Run something in a scope of its own. Every scope that was opened since is
    closed again, whatever happened. -/
def withScope (prover : Prover ω β) (body : SessionM ω β α) : SessionM ω β α := do
  let depth := (← getThe (Session ω β)).depth
  push
  let result ← ExceptT.lift body.run
  let opened := (← getThe (Session ω β)).depth - depth
  let closed ← ExceptT.lift (popMany prover opened (.ok ()))
  let value ← liftExcept result
  liftExcept closed
  return value

/-- Retract and forget the global axioms. -/
def clearGlobals (prover : Prover ω β) : SessionM ω β Unit := do
  let s ← getThe (Session ω β)
  if !s.scopes.isEmpty then throw .scopeUnderflow
  set { s with globals := [] }
  retractAll prover s.globals

/-- Stop whoever answers, if anyone does. -/
def stop (prover : Prover ω β) : StateM (Session ω β) Unit := do
  match (← get).phase.backend? with
  | some b => inWorld (b.terminate prover)
  | none => return

/-- Replace the prover by a new one, which is told the global axioms. -/
def restart (prover : Prover ω β) : StateM (Session ω β) Unit := do
  stop prover
  modify fun s =>
    { s with
      phase := .uninitialized
      scopes := []
      counts := { s.counts with restarts := s.counts.restarts + 1 } }
  launch prover

/-- Stop the prover. The global axioms are kept for another start. -/
def terminate (prover : Prover ω β) : StateM (Session ω β) Unit := do
  stop prover
  modify fun s => { s with phase := .uninitialized, scopes := [] }

/-- A summary of the session for diagnostics. -/
def describe (s : Session ω β) : String :=
  "ProverSession \x7b state: " ++ s.phase.name
    ++ ", globals: " ++ toString s.globals.length
    ++ ", depth: " ++ toString s.depth
    ++ ", degraded: " ++ toString s.degraded
    ++ ", stats: ScopeStats \x7b pushes: " ++ toString s.counts.pushes
    ++ ", pops: " ++ toString s.counts.pops
    ++ ", restarts: " ++ toString s.counts.restarts ++ " \x7d \x7d"

end Session

end Vouch
