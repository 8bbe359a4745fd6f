import Vouch.Verify.Verifier

/-!
# Several Workers

Prepared routines do not depend on each other, so they can be shared out among workers.
Each worker has a verifier of its own, with its own prover and its own supply of names,
and installs the program before its first routine.

## Main definitions

* `Prover.verifyShared`: Checks a program with several workers.
* `Prover.verifyAlone`: Checks a program with one.
-/

namespace Vouch

/-- The outside, and the verifiers that were set up so far. -/
structure Workers (ω β : Type) where
  outside : ω
  /-- The verifiers by worker, or why the program could not be installed. The
      outside that each of them remembers is the one it last acted on. -/
  staff : List (Nat × Except VerifyError (Verifier ω β)) := []

/-- What is done with workers. -/
abbrev WorkersM (ω β : Type) := ExceptT VerifyError (StateM (Workers ω β))

namespace Verifier

variable {ω β : Type}

/-- The verifier in another outside. -/
def moveTo (v : Verifier ω β) (outside : ω) : Verifier ω β :=
  { v with session := { v.session with world := { v.session.world with outside } } }

end Verifier

namespace Workers

variable {ω β : Type}

/-- Remember a worker's verifier, with the outside it left behind. -/
def keep (w : Workers ω β) (id : Nat) (v : Verifier ω β)
    (state : Except VerifyError (Verifier ω β)) : Workers ω β :=
  { outside := v.session.world.outside, staff := (id, state) :: w.staff.filter (·.1 != id) }

/-- The verifier of a worker, set up if this is its first routine. -/
def hire (prover : Prover ω β) (style : ConditionStyle) (p : Program) (id : Nat) :
    WorkersM ω β (Verifier ω β) := do
  let w ← getThe (Workers ω β)
  match w.staff.lookup id with
  | some (.ok v) => return v.moveTo w.outside
  | some (.error e) => throw (.setting e.message)
  | none =>
    let (installed, v) :=
      (Verifier.install p).run.run (Verifier.init prover style { outside := w.outside })
    match installed with
    | .ok () =>
      set (w.keep id v (.ok v))
      return v
    | .error e =>
      set (w.keep id v (.error e))
      throw (.setting e.message)

/-- Have a worker check a routine. Also say whether that worker is degraded. -/
def check (prover : Prover ω β) (style : ConditionStyle) (p : Program) (id : Nat) (r : Routine) :
    WorkersM ω β (RoutineReport × Bool) := do
  let v ← hire prover style p id
  let (outcome, v) := (Verifier.report r).run.run v
  modifyThe (Workers ω β) fun w => w.keep id v (.ok v)
  let report ← liftExcept outcome
  return (report, v.session.degraded)

end Workers

namespace Prover

variable {ω β : Type}

/-- Check a program with several workers, routine `i` going to worker
    `assign i`. Faults of the program are found before any prover starts. -/
def verifyShared (prover : Prover ω β) (style : ConditionStyle) (assign : Nat → Nat) (p : Program) :
    StateM ω (Except VerifyError Report) := fun outside =>
  let prepared := do
    let prepared ← p.prepare
    let _ ← (p.axiomTerms.run {}).1
    return prepared
  match prepared with
  | .error e => (.error e, outside)
  | .ok prepared =>
    let work := prepared.routines.zipIdx.mapM fun (r, i) =>
      Workers.check prover style p (assign i) r
    let (checked, w) := work.run.run { outside }
    let report := checked.map fun reports =>
      ({ routines := reports.map (·.1), degraded := reports.any (·.2) } : Report)
    (report, w.outside)

/-- Check a program with one worker. -/
def verifyAlone (prover : Prover ω β) (style : ConditionStyle) (p : Program) :
    StateM ω (Except VerifyError Report) := fun outside =>
  let (report, v) := (Verifier.run p).run.run (Verifier.init prover style { outside })
  (report, v.terminate.session.world.outside)

/-- Check a program with as many workers as there are jobs. -/
def verifyProgram (prover : Prover ω β) (style : ConditionStyle) (jobs : Nat) (assign : Nat → Nat)
    (p : Program) : StateM ω (Except VerifyError Report) :=
  if jobs ≤ 1 then prover.verifyAlone style p else prover.verifyShared style assign p

end Prover

end Vouch
