import Vouch.Prover.Session

/-!
# Steps of a Session

What can be done with a session, written down as data, so that whole courses
of events can be run, watched and reasoned about. After each step, inner ones
included, something may look at the session and at what the step came to. What is
noted down then has to be kept somewhere the prover does not touch.

## Main definitions

* `SessionStep`: One thing that is done with a session.
* `SessionStep.runAll`: Does steps up to the first that fails.
* `Prover.beside`: A prover with room beside its outside.
-/

namespace Vouch

/-- One thing that is done with a session. -/
inductive SessionStep
  | start
  | push
  | pop
  | assume (t : Term)
  | isValid (t : Term)
  | clearGlobals
  | restart
  | terminate
  | describe
  /-- Do the steps in a scope, up to the first that fails. -/
  | withScope (steps : List SessionStep)
  /-- Do the step and forget about its failure. -/
  | attempt (step : SessionStep)

namespace SessionStep

/-- What a step came to. -/
inductive Result
  | done
  | answer (valid : Bool)
  | description (text : String)
  /-- All steps were done in the scope, and this is their number. -/
  | scoped (steps : Nat)

/-- Something that looks at a session after a step. -/
abbrev Watch (ω β : Type) := Except ProverError Result → StateM (Session ω β) Unit

variable {ω β : Type}

/-- Do something and have it watched. -/
def watched (watch : Watch ω β) (m : SessionM ω β Result) : SessionM ω β Unit := do
  let outcome ← ExceptT.lift m.run
  ExceptT.lift (watch outcome)
  discard (liftExcept outcome)

/-- Do something that cannot fail. -/
def sure (m : StateM (Session ω β) Unit) : SessionM ω β Result := do
  ExceptT.lift m
  return .done

mutual

/-- Do a step. -/
def run (prover : Prover ω β) (watch : Watch ω β) : SessionStep → SessionM ω β Unit
  | start => watched watch (sure (Session.start prover))
  | push => watched watch do Session.push; return .done
  | pop => watched watch do Session.pop prover; return .done
  | assume t => watched watch do Session.assume prover t; return .done
  | isValid t => watched watch do return .answer (← Session.isValid prover t)
  | clearGlobals => watched watch do Session.clearGlobals prover; return .done
  | restart => watched watch (sure (Session.restart prover))
  | terminate => watched watch (sure (Session.terminate prover))
  | describe => watched watch do return .description (← getThe (Session ω β)).describe
  | withScope steps =>
    watched watch (Session.withScope prover do
      runAll prover watch steps
      return .scoped steps.length)
  | attempt step => discard (ExceptT.lift (run prover watch step).run)

/-- Do steps up to the first that fails. -/
def runAll (prover : Prover ω β) (watch : Watch ω β) : List SessionStep → SessionM ω β Unit
  | [] => return
  | step :: steps => do
    run prover watch step
    runAll prover watch steps

end

end SessionStep

namespace World

variable {ω τ α : Type}

/-- Act on a world and leave alone what is beside its outside. -/
def beside (m : StateM (World ω) α) : StateM (World (ω × τ)) α := fun w =>
  let (a, v) := m.run { supply := w.supply, outside := w.outside.1 }
  (a, { supply := v.supply, outside := (v.outside, w.outside.2) })

end World

namespace Prover

variable {ω β : Type}

/-- A prover with room beside its outside, which it leaves alone. -/
def beside (τ : Type) (p : Prover ω β) : Prover (ω × τ) β where
  start := World.beside p.start
  assume t := ExceptT.mk fun b => World.beside ((p.assume t).run.run b)
  retract := ExceptT.mk fun b => World.beside (p.retract.run.run b)
  isValid t := ExceptT.mk fun b => World.beside ((p.isValid t).run.run b)
  terminate b := World.beside (p.terminate b)
  isStub := p.isStub

end Prover

end Vouch
