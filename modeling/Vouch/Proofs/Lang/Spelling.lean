import Vouch.Proofs.Lang.Composition
import Vouch.Proofs.Term.Renaming

/-!
# Names in Expressions

What is known of all names in an expression is known of those in its parts, and in what
a substitution makes of it, as long as it is known of the names that renamed binders
get as well.

## Main definitions

* `Expr.Spelled`: What is known of the names of variables and functions.

## Theorems

* `Expr.Spelled.subst`: Substitution keeps it.
-/

namespace Vouch

open List

namespace Expr

mutual

/-- The names of variables, bound or free, are in `N`, and those of functions in `F`. -/
def Spelled (N F : String → Prop) : Expr → Prop
  | .bool _ | .int _ => True
  | .var x => N x
  | .unary _ e => Spelled N F e
  | .binary _ l r => Spelled N F l ∧ Spelled N F r
  | .app f args => F f ∧ SpelledAll N F args
  | .select m idx => Spelled N F m ∧ SpelledAll N F idx
  | .update m idx v => Spelled N F m ∧ SpelledAll N F idx ∧ Spelled N F v
  | .all vars body => (∀ v ∈ vars, N v.name) ∧ Spelled N F body

/-- The same for a list of expressions. -/
def SpelledAll (N F : String → Prop) : List Expr → Prop
  | [] => True
  | e :: es => Spelled N F e ∧ SpelledAll N F es

end

/-- The functions that the expression itself applies. -/
def applied : Expr → List String
  | .app f _ => [f]
  | _ => []

theorem applied_mapParts (f : Expr → Expr) (e : Expr) : (e.mapParts f).applied = e.applied := by
  cases e <;> rfl

variable {N F : String → Prop}

theorem spelledAll_iff {es : List Expr} : SpelledAll N F es ↔ ∀ e ∈ es, e.Spelled N F := by
  induction es with
  | nil => simp [SpelledAll]
  | cons e es ih => rw [SpelledAll, ih, forall_mem_cons]

theorem IsOperator.spelled_iff {e : Expr} (h : e.IsOperator) :
    e.Spelled N F ↔ (∀ f ∈ e.applied, F f) ∧ ∀ c ∈ e.parts, c.Spelled N F := by
  cases e with
  | var | all => exact h.elim
  | _ => simp [Spelled, spelledAll_iff, applied, parts, and_comm]

theorem Spelled.of_mem_names {x : String} {e : Expr} (h : e.Spelled N F) (hx : x ∈ e.names) :
    N x := by
  induction e using Expr.induction with
  | var y => exact mem_names_var.mp hx ▸ h
  | all vars body ih =>
    rcases mem_names_all.mp hx with hx | hx
    · rcases mem_map.mp hx with ⟨v, hv, rfl⟩
      exact h.1 v hv
    · exact ih h.2 hx
  | operator e he ih =>
    rcases he.mem_names.mp hx with ⟨c, hc, hx⟩
    exact ih c hc ((he.spelled_iff.mp h).2 c hc) hx

theorem spelled_of_names {e : Expr} (h : ∀ x ∈ e.names, N x) : e.Spelled N fun _ => True := by
  induction e using Expr.induction with
  | var x => exact h x (mem_names_var.mpr rfl)
  | all vars body ih =>
    exact ⟨fun v hv => h _ (mem_names_all.mpr (.inl (mem_map_of_mem hv))),
      ih fun x hx => h x (mem_names_all.mpr (.inr hx))⟩
  | operator e he ih =>
    exact he.spelled_iff.mpr ⟨fun _ _ => trivial,
      fun c hc => ih c hc fun x hx => h x (he.mem_names.mpr ⟨c, hc, hx⟩)⟩

theorem Spelled.mono {N' F' : String → Prop} (hN : ∀ x, N x → N' x) (hF : ∀ f, F f → F' f)
    {e : Expr} (h : e.Spelled N F) : e.Spelled N' F' := by
  induction e using Expr.induction with
  | var x => exact hN x h
  | all vars body ih => exact ⟨fun v hv => hN _ (h.1 v hv), ih h.2⟩
  | operator e he ih =>
    rcases he.spelled_iff.mp h with ⟨hfunctions, hparts⟩
    exact he.spelled_iff.mpr
      ⟨fun f hf => hF f (hfunctions f hf), fun c hc => ih c hc (hparts c hc)⟩

/-- The names are still there with the mark of renamed binders. -/
def VariantClosed (N : String → Prop) : Prop :=
  ∀ {n x}, N n → Variant n x → N x

theorem spelled_renameBinders (hN : VariantClosed N) {coming : List String} :
    ∀ {vars : List VarDecl} {taken : List String} {σ : NameMap Expr}, (∀ v ∈ vars, N v.name) →
    (∀ a ∈ σ.values, a.Spelled N F) →
    ∀ a ∈ (renameBinders coming vars taken σ).2.values, a.Spelled N F
  | [], _, _, _, hσ => hσ
  | v :: vs, taken, σ, hvars, hσ => by
    have hvs : ∀ w ∈ vs, N w.name := (forall_mem_cons.mp hvars).2
    by_cases hv : v.name ∈ coming
    · rw [renameBinders_cons_of_mem hv]
      refine spelled_renameBinders hN hvs fun a ha => ?_
      rcases NameMap.mem_values_insert ha with rfl | ha
      · exact hN (hvars v mem_cons_self) (freshNumbered_numbered v.name "$q" taken).2
      · exact hσ a ha
    · rw [renameBinders_cons_of_not_mem hv]
      exact spelled_renameBinders hN hvs hσ

/-- New binders are numbered variants, so these have to be allowed too. -/
theorem Spelled.subst (hN : VariantClosed N) {e : Expr} : ∀ {σ : NameMap Expr},
    e.Spelled N F → (∀ a ∈ σ.values, a.Spelled N F) → (e.subst σ).Spelled N F := by
  induction e using Expr.induction with
  | var x =>
    intro σ h hσ
    rw [Expr.subst]
    cases hx : σ.find? x with
    | none => exact h
    | some a => exact hσ a (NameMap.mem_values_of_find? hx)
  | all vars body ih =>
    intro σ h hσ
    rw [Expr.subst]
    refine ⟨fun w hw => ?_, ih h.2 (spelled_renameBinders hN h.1 fun a ha =>
      hσ a (NameMap.mem_values_eraseAll ha))⟩
    rcases mem_renameBinders hw with ⟨hw, _⟩ | ⟨v, hv, _, hvariant, _⟩
    · exact h.1 w hw
    · exact hN (h.1 v hv) hvariant
  | operator e he ih =>
    intro σ h hσ
    rcases he.spelled_iff.mp h with ⟨hfunctions, hparts⟩
    rw [(he.isOperator_subst σ).spelled_iff, he.parts_subst, he.subst_eq, applied_mapParts]
    exact ⟨hfunctions, forall_mem_map.mpr fun c hc => ih c hc (hparts c hc) hσ⟩

end Expr

end Vouch
