import Vouch.Proofs.Condition.Computing

/-!
# How Computing a Condition Fails

Six things can keep a body from having a condition. Three of them are the fault of
an expression, and the others of the body: its graph does not fit, or has a cycle, or
a call is left in it. What a computation fails with does not depend on what was made
before, so nothing has to be known of the terms that are made.

## Main definitions

* `FailsOnly`: Computations that fail with errors of a kind only.

## Theorems

* `failsOnly_compute`: If the graph fits and has an order and no call is left, only the
  faults of expressions remain.
-/

namespace Vouch

open ConditionError

/-- The computation fails with errors of the kind only. -/
def FailsOnly {α : Type} (E : ConditionError → Prop) (m : Encode α) : Prop :=
  ∀ (k : Encoder) (err : ConditionError), (m.run.run k).1 = .error err → E err

theorem Regime.Yields.failsOnly {α : Type} {E : ConditionError → Prop} {m : Encode α}
    {Q : Unit → α → Prop} (h : (Regime.ofPairs (fun _ _ => True) E).Yields () m Q) :
    FailsOnly E m := by
  intro k err herr
  rcases h k ⟨trivial, fun _ _ _ => trivial⟩ with ⟨_, _, _, _, hfails⟩
  exact hfails err herr

theorem leaves_anything {α : Type} (m : Fresh α) :
    Leaves (fun (_ : Unit) _ => True) () m fun _ _ => True :=
  fun _ _ => ⟨(), le_rfl, trivial, trivial⟩

/-- Of what is made nothing is asked, and what encoding fails with is the fault of an
    expression. -/
theorem Condition.upholds_faults (c : Condition) :
    c.Upholds (Regime.ofPairs (fun _ _ => True) OfExpression).tandem (fun _ => True)
      (fun _ => True) (fun _ _ _ => True) (fun _ _ => True) (fun _ _ => True)
      fun _ _ _ _ => True where
  error h := h
  theory _ := by
    refine Theory.upholds_of_gives (fun _ _ _ => ?_) (fun _ _ => ?_) fun _ _ _ _ _ => ?_
    · trivial
    · trivial
    · trivial
  keep _ _ := trivial
  var _ := (leaves_anything _).copies
  bound _ _ _ := trivial
  declared _ {_ _ _ _} _ := by
    -- Only a boolean has a formula, whether it is remembered or made.
    refine (yields_varTerms _ (fun hT _ _ => ?_) (fun hT => ?_) fun _ => ?_).beside
    · exact ⟨trivial, fun _ _ => ⟨hT, trivial⟩⟩
    · refine (leaves_anything _).mono fun _ _ _ _ => ?_
      exact ⟨trivial, trivial, fun _ _ => ⟨hT, trivial⟩⟩
    · refine (leaves_anything _).mono fun _ _ _ _ => ⟨trivial, fun _ h => ?_⟩
      cases h
  all _ _ := (leaves_anything _).copies
  scope _ := trivial
  version _ _ _ := ⟨(), le_rfl, trivial, "", trivial⟩
  value _ := ⟨trivial, rfl⟩
  formula _ := ⟨trivial, rfl⟩
  subst _ _ := (leaves_anything _).copies
  renew _ _ _ _ := by
    refine (yields_bind (yields_lift (leaves_anything _)) fun _ _ _ _ => ?_).beside
    exact yields_lift (leaves_anything _)

/-- What is left are unknown variables, ill-typed expressions and quantifiers among
    values. -/
theorem failsOnly_compute {c : Condition} {body : Body}
    (hbody : ∀ d ∈ body, ∀ site, d.action ≠ .call site) {g : FlowGraph}
    (hsize : g.size = body.length) {order : List Nat}
    (horder : g.topologicalOrder? = some order) (name : String) :
    FailsOnly OfExpression (c.compute name body g) := by
  have hspelled : ∀ d ∈ body, ∀ e ∈ d.action.exprs, e.Spelled (fun _ => True) fun _ => True :=
    fun _ _ _ _ => Expr.spelled_of_names fun _ _ => trivial
  have hcalls : ∀ d ∈ body, ∀ site, d.action = .call site → ∀ err,
      (Regime.ofPairs (fun _ _ => True) OfExpression).error err :=
    fun d hd site hsite => absurd hsite (hbody d hd site)
  rw [Condition.compute_eq, if_pos hsize, horder]
  dsimp only
  cases c.method with
  | wp => exact (yields_weakest c.upholds_faults hspelled hcalls g order).yields.failsOnly
  | sp => exact (yields_strongest c.upholds_faults hspelled hcalls g order).yields.failsOnly

end Vouch
