import Vouch.Proofs.Condition.Computing
import Vouch.Proofs.Term.Placing

/-!
# Conditions Within the Layers

What is encoded on the formula side is right for a formula, and what is encoded
on the value side is right for a value, whatever is meant by right as long as
building terms keeps it up.

## Main definitions

* `Placing.regime`: The account is a stock that is as it should be.
* `Placing.Admits`: The names in an expression are as they should be.

## Theorems

* `Encoding.upholds_right`: Encodings are right for their sides.
* `Placing.Suits.yields_condition`: Conditions are right for formulas.
-/

namespace Vouch

open Term

/-- The stock is as it should be, and so are the terms that are remembered for a
    variable. All errors are allowed. -/
def Placing.regime (P : Placing) (th : Theory) : Regime Stock where
  fits := P.Fits th
  pair W _ p := P.Right .value W p.term ∧ ∀ f, p.formula = some f → P.Right .formula W f
  mono hWX h := ⟨h.1.mono hWX, fun f hf => (h.2 f hf).mono hWX⟩
  error _ := True

/-- The values of variables and of their versions are named like values, and the
    formulas of the boolean ones like formulas. -/
structure Placing.Covers (P : Placing) (s : Scope) : Prop where
  value : ∀ M y T, s.Version M y T → P.names .value (valueName y)
  formula : ∀ M y, s.Version M y .bool → P.names .formula y

/-- The values of the variables in the expression are named like values, bound or
    free, and functions like functions. -/
def Placing.Admits (P : Placing) (e : Expr) : Prop :=
  e.Spelled (fun x => P.names .value (valueName x)) P.functions

section Layering

variable {P : Placing} {W : Stock} (hP : P.Suits)
include hP

theorem leaves_linkedPair {c : Encoding} {x : String} (hvalue : P.names .value (valueName x))
    (hformula : P.names .formula x) :
    Leaves (P.Fits c.theory) W (c.linkedPair x) fun X p =>
      P.Right .value X p.term ∧ ∀ f, p.formula = some f → P.Right .formula X f := by
  have hth := hP.upholds c.theory
  unfold Encoding.linkedPair
  refine leaves_bind (hP.leaves_named .formula hformula (by simp)) fun X₁ f h₁ hf => ?_
  refine leaves_bind (hP.leaves_named .bool hvalue (by simp)) fun X₂ v h₂ hv => ?_
  refine leaves_bind (hth.boolLit true).leaves fun X₃ l h₃ hl => ?_
  refine leaves_bind (hth.two ⟨rfl, rfl, rfl, by simp⟩ (hv.2.mono h₃) hl).leaves
    fun X₄ e h₄ he => ?_
  refine leaves_bind (hth.two ⟨rfl, rfl, rfl, by simp⟩ (hf.2.mono (h₂.trans (h₃.trans h₄)))
    he).leaves fun X₅ link h₅ hlink => ?_
  -- The value is made a second time, now with the link attached.
  refine leaves_bind (hP.leaves_named .bool hvalue
    (List.forall_mem_singleton.mpr hlink)) fun X₆ t h₆ ht => leaves_pure ⟨ht.2, ?_⟩
  rintro _ ⟨⟩
  exact hf.2.mono (h₂.trans (h₃.trans (h₄.trans (h₅.trans h₆))))

/-- What is encoded on a side is right for it, if building terms keeps that up. -/
theorem Encoding.upholds_right {c : Encoding} (hcovers : P.Covers c.scope) :
    c.Upholds (P.regime c.theory).tandem (fun x => P.names .value (valueName x)) P.functions
      (fun y _ T => ∃ M, c.scope.Version M y T) (P.Right .value) fun _ => P.Right where
  error _ := trivial
  theory _ := hP.upholds c.theory
  keep hWX ht := ht.mono hWX
  var {_ _ T} hx := by
    have hlayer : P.names T.sort.layer _ := T.layer_sort ▸ hx
    refine ((hP.leaves_named T.sort hlayer (by simp)).mono fun _ _ _ ht => ?_).copies
    exact T.layer_sort ▸ ht.2
  bound _ _ ht := ht
  declared _ {_ x _ T} hx := by
    rcases hx with ⟨M, hx⟩
    have hvalue := hcovers.value M x T hx
    refine (yields_varTerms c (fun hT p hp => ?_) (fun hT => ?_) fun _ => ?_).beside
    · -- The terms of a boolean are remembered as they were made.
      exact ⟨hp.1, fun f hf => ⟨hT, hp.2 f hf⟩⟩
    · -- They are made as a pair, with the link between its sides.
      have hformula := hcovers.formula M x (hT ▸ hx)
      refine (leaves_linkedPair hP hvalue hformula).mono fun X p _ hp => ?_
      exact ⟨hp, hp.1, fun f hf => ⟨hT, hp.2 f hf⟩⟩
    · -- Any other variable is a value only.
      have hlayer : P.names T.sort.layer _ := T.layer_sort ▸ hvalue
      refine (hP.leaves_named T.sort hlayer (by simp)).mono fun X t _ ht => ?_
      exact ⟨T.layer_sort ▸ ht.2, by simp⟩
  all hvs hb := by
    refine (hP.leaves_all (fun v hv => ?_) hb).copies
    rcases exists_of_forall₂_left hvs hv with ⟨_, _, hvar, hright⟩
    exact ⟨hright, _, hvar.name?⟩

theorem Condition.upholds_right {c : Condition} (hcovers : P.Covers c.scope) :
    c.Upholds (P.regime c.theory).tandem (fun x => P.names .value (valueName x)) P.functions
      (fun y _ T => ∃ M, c.scope.Version M y T) P.names (P.Right .value) fun _ => P.Right where
  toUpholds := Encoding.upholds_right hP hcovers
  scope hx := ⟨0, Scope.version_of_varType? hx 0⟩
  version hx := (Placing.leaves_name _).versions hx
  value hx := ⟨hcovers.value 0 _ _ (Scope.version_of_varType? hx 0), rfl⟩
  formula hx := ⟨hcovers.formula 0 _ (Scope.version_of_varType? hx 0), rfl⟩
  subst ht hσ := ((hP.leaves_subst ht hσ).mono fun _ _ _ hr => ⟨hr.1, hr.2 _ ht.fits⟩).copies
  renew {W t l r σ} ht hop hcs hσ := by
    have hl : l ∈ W.terms := W.closed t ht.mem l (by simp [hcs])
    have hr : r ∈ W.terms := W.closed t ht.mem r (by simp [hcs])
    refine (yields_bind (Q := fun X r' => r' ∈ X.terms ∧ ∀ k, P.fits k r → P.fits k r')
      (yields_lift (Placing.leaves_of_placed fun hW => ?_)) fun X r' hWX hr' =>
        yields_lift ?_).beside
    · rcases hP.operand (hW.node t ht.mem) ht.fits (c := r) (by simp [hcs]) with ⟨k, hk⟩
      exact hP.leaves_subst ⟨hr, hk⟩ hσ
    · refine (hP.leaves_rebuild (hWX.1 ht.mem) hop ht.fits (by simp [hWX.1 hl, hr'.1]) ?_).mono
        fun Y u _ hu => ⟨hu.1, hu.2.2 _ ht.fits⟩
      rw [hcs]
      exact .cons (fun _ h => h) (.cons hr'.2 .nil)

/-- A condition is right for a formula, and so is everything made on the way. -/
theorem Placing.Suits.yields_condition {c : Condition} (hcovers : P.Covers c.scope) {body : Body}
    (hbody : ∀ command ∈ body, ∀ e ∈ command.action.exprs, P.Admits e) (name : String)
    (g : FlowGraph) : (P.regime c.theory).Yields W (c.compute name body g) (P.Right .formula) :=
  (yields_compute (Condition.upholds_right hP hcovers) hbody (fun _ => trivial) name g).yields

end Layering

end Vouch
