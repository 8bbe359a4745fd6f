import Vouch.Proofs.Verify.Recovery
import Vouch.Proofs.Verify.Standalone

/-!
# Failed Calls Leave No Trace

First everything is built that the prover is to be told or asked, and only then is the
prover turned to. A failure of the prover is no error of the call, so what a call does to
a program that is at fault is described without any prover. A call that fails has spent
some of the supply.

## Main definitions

* `VerifierStep.built`: What a step builds before it turns to the prover.

## Theorems

* `failed_calls_leave_no_trace`: Apart from the supply the verifier is as it was.
-/

namespace Vouch

variable {ω β α : Type}

/-- The error in a result. -/
def VerifyError.of? : Except VerifyError α → Option VerifyError
  | .error e => some e
  | .ok _ => none

namespace VerifierStep

/-- The error of the step, if it fails. -/
def failure? (v : Verifier ω β) : VerifierStep → Option VerifyError
  | process prog => VerifyError.of? ((Verifier.process prog).run.run v).1
  | install prog => VerifyError.of? ((Verifier.install prog).run.run v).1
  | verify r => VerifyError.of? ((Verifier.verify r).run.run v).1
  | terminate => none

/-- What the step builds before it turns to the prover, up to the error if there is
    one. -/
def built (style : ConditionStyle) (scope : Scope) : VerifierStep → Fresh (Option VerifyError)
  | process prog =>
    match prog.prepare with
    | .error e => return some e
    | .ok _ => do return VerifyError.of? (← prog.axiomTerms)
  | install prog => do return VerifyError.of? (← prog.axiomTerms)
  | verify r => do return VerifyError.of? (← Verifier.condition style scope r)
  | terminate => return none

variable {style : ConditionStyle} {scope : Scope} {v : Verifier ω β} {e : VerifyError}

theorem advances_built (step : VerifierStep) (supply : Supply) :
    supply.Advances ((step.built style scope).run supply).2 := by
  cases step with
  | process prog =>
    simp only [built]
    split
    · exact ⟨rfl, le_rfl, le_rfl⟩
    · exact prog.advances_axiomTerms supply
  | install prog => exact prog.advances_axiomTerms supply
  | verify r => exact Verifier.advances_condition style scope r supply
  | terminate => exact ⟨rfl, le_rfl, le_rfl⟩

/-- Nothing happened to the verifier but that building was tried and failed. -/
def Refuses (v : Verifier ω β) (step : VerifierStep) : Prop :=
  step.failure? v = ((step.built v.style v.scope).run v.session.world.supply).1 ∧
    ∀ e, step.failure? v = some e →
      step.after v = v.restocked ((step.built v.style v.scope).run v.session.world.supply).2

theorem refuses_install (prog : Program) : Refuses v (.install prog) := by
  unfold Refuses
  simp only [failure?, built, after]
  rcases v.install_cases prog with ⟨e, supply, hbuilt, hrun⟩ | ⟨terms, supply, hbuilt, hrun⟩
  · rw [hrun, StateT.run_bind, hbuilt]
    exact ⟨rfl, fun _ _ => rfl⟩
  · rw [hrun, StateT.run_bind, hbuilt]
    exact ⟨rfl, fun _ h => by cases h⟩

theorem refuses (v : Verifier ω β) (step : VerifierStep) : Refuses v step := by
  cases step with
  | process prog =>
    rcases v.process_cases prog with ⟨e, hprepare, hrun⟩ | ⟨prepared, hprepare, hrun⟩
    · unfold Refuses
      simp only [failure?, built, after, hprepare, hrun]
      exact ⟨rfl, fun _ _ => rfl⟩
    · -- From here on a program is processed as it is installed.
      have hinstall := refuses_install (v := v) prog
      have hsame : ∀ r : Except VerifyError Unit,
          VerifyError.of? (r.map fun _ => prepared) = VerifyError.of? r := by
        rintro (_ | _) <;> rfl
      unfold Refuses at hinstall ⊢
      simp only [failure?, built, after, hprepare, hrun, hsame] at hinstall ⊢
      exact hinstall
  | install prog => exact refuses_install prog
  | verify r =>
    unfold Refuses
    simp only [failure?, built, after]
    rcases v.verify_cases r with ⟨e, supply, hbuilt, hrun⟩ | ⟨vc, supply, hbuilt, hrun⟩
    · rw [hrun, StateT.run_bind, hbuilt]
      exact ⟨rfl, fun _ _ => rfl⟩
    · rw [hrun, StateT.run_bind, hbuilt]
      exact ⟨rfl, fun _ h => by cases h⟩
  | terminate => exact ⟨rfl, fun _ h => by cases h⟩

end VerifierStep

/-- **Failed calls leave no trace.** If a call fails, the verifier is as it was, except
    that some of the supply is spent. A verifier in the same state whose prover writes
    down what it is asked fails as well, and nothing has been written. -/
theorem failed_calls_leave_no_trace {v : Verifier ω β} {step : VerifierStep} {e : VerifyError}
    (h : step.failure? v = some e) :
    ∃ supply, v.session.world.supply.Advances supply ∧ step.after v = v.restocked supply ∧
      ∀ u : Verifier (ω × List (ProverCall β)) β,
        Verifier.Sees Prod.fst v.prover.observed v.prover u v →
        step.failure? u = some e ∧ step.after u = u.restocked supply ∧
          (step.after u).log = u.log := by
  rcases step.refuses v with ⟨hfailure, hafter⟩
  refine ⟨_, step.advances_built _, hafter e h, fun u hsees => ?_⟩
  rcases step.refuses u with ⟨hfailure', hafter'⟩
  have hsupply : v.session.world.supply = u.session.world.supply := by
    rw [hsees.session]
    rfl
  rw [hsees.style, hsees.scope, hsupply] at hfailure ⊢
  have hu : step.failure? u = some e := hfailure'.trans (hfailure.symm.trans h)
  refine ⟨hu, hafter' e hu, ?_⟩
  rw [hafter' e hu]
  rfl

/-- The second axiom speaks of a variable that is not declared. -/
def undeclaredProgram : Program where
  axioms := [.eq (.int 0) (.int 0), .var "x"]

theorem failed_calls_leave_no_trace_undeclared : ∃ e supply,
    (VerifierStep.process undeclaredProgram).failure?
      (Verifier.init (Prover.stub Unit) {} { outside := () }) = some e ∧
    (VerifierStep.process undeclaredProgram).after
        (Verifier.init (Prover.stub Unit) {} { outside := () }) =
      (Verifier.init (Prover.stub Unit) {} { outside := () }).restocked supply ∧
    ((VerifierStep.process undeclaredProgram).after
      (Verifier.init (Prover.stub Unit).observed {} { outside := ((), []) })).log =
        (Verifier.init (Prover.stub Unit).observed {} { outside := ((), []) }).log := by
  have hfails : ((VerifierStep.process undeclaredProgram).failure?
      (Verifier.init (Prover.stub Unit) {} { outside := () })).isSome = true := by decide +kernel
  rcases Option.isSome_iff_exists.mp hfails with ⟨e, hfailure⟩
  rcases failed_calls_leave_no_trace hfailure with ⟨supply, _, hafter, hwatched⟩
  have hsees := Verifier.sees_init (Prover.stub Unit).covers_observed {}
    (w := { outside := ((), []) })
  exact ⟨e, supply, hfailure, hafter, (hwatched _ hsees).2.2⟩

end Vouch
