import Vouch.Proofs.Term.Definitions

/-!
# Formulas in Place of Terms

What a program holds is never the terms that were assumed. Each of them arrives as one
formula, in which shared nodes have variables and the definitions of these are part of
the formula.

## Main definitions

* `Wire.Represents`: A formula was pushed for a term.
* `Wire.Pushed`: Formulas were pushed for assumed terms.

## Theorems

* `Wire.Pushed.entails_iff`: A query is answered as if the terms had been assumed.
-/

namespace Vouch

open List Term Reading

namespace Wire

/-- The formula was pushed for the term. It says what the term says, and it defines
    variables with numbers from `N` to `M` which can be chosen so that it says no
    more. -/
structure Represents (N M : Nat) (t f : Term) : Prop where
  le : N ≤ M
  below : ShareBelow M f
  sound : ∀ (R : Reading) (E : Env R.Value), R.Holds f E → R.Holds t E
  exists_env : ∀ (R : Reading) (E : Env R.Value), R.Holds t E →
    ∃ E', Env.AgreeBelow N E E' ∧ R.Holds f E'

variable {M : Nat} {f : Term}

theorem Represents.mono {N M' : Nat} {t : Term} (h : Represents N M t f) (hM : M ≤ M') :
    Represents N M' t f :=
  ⟨h.le.trans hM, h.below.mono hM, h.sound, h.exists_env⟩

theorem represents_of_unfolds {N : Nat} {t q : Term} {ds : List Term} (hu : Unfolds N M t ds q)
    (hf : Conjoins (ds ++ [q]) f) (ht : ShareBelow 0 t) : Represents N M t f := by
  have hall : ∀ (R : Reading) (E : Env R.Value),
      R.Holds f E ↔ (∀ d ∈ ds, R.Holds d E) ∧ R.Holds q E := by
    intro R E
    rw [hf.holds_iff, forall_mem_append, forall_mem_singleton]
  refine ⟨hu.le, hf.everywhere (lt_of_op_ne_var (by simp) M) (lt_of_op_ne_var (by simp) M) ?_,
    fun R E hE => ?_, fun R E hE => ?_⟩
  · rw [forall_mem_append, forall_mem_singleton]
    exact ⟨hu.definitions_below, hu.below⟩
  · rcases (hall R E).mp hE with ⟨hds, hq⟩
    exact (hu.holds_iff R E hds).mp hq
  · -- The definitions are satisfied by a change that the term does not see.
    rcases hu.exists_env R E with ⟨E', hagree, hds⟩
    have ht' : R.Holds t E' :=
      (holds_congr t (agree_of_shareBelow ht (hagree.mono (Nat.zero_le N)))).mp hE
    exact ⟨E', hagree, (hall R E').mpr ⟨hds, (hu.holds_iff R E' hds).mpr ht'⟩⟩

/-- Formulas that were pushed for assumed terms, in the same order. Each has numbers
    of its own for its variables, all of them less than `N`. -/
inductive Pushed : Nat → List Term → List Term → Prop
  | nil {N : Nat} : Pushed N [] []
  | snoc {N M : Nat} {t f : Term} {ts fs : List Term} : Pushed N ts fs → ShareBelow 0 t →
      Represents N M t f → Pushed M (ts ++ [t]) (fs ++ [f])

namespace Pushed

variable {N M : Nat} {ts fs ds ps : List Term} {t q : Term}

theorem mono (h : Pushed N ts fs) (hN : N ≤ M) : Pushed M ts fs := by
  cases h with
  | nil => exact .nil
  | snoc h ht hf => exact .snoc h ht (hf.mono hN)

theorem length_eq (h : Pushed N ts fs) : fs.length = ts.length := by
  induction h with
  | nil => rfl
  | snoc _ _ _ ih => rw [length_append, length_append, ih]; rfl

theorem dropLast (h : Pushed N ts fs) : Pushed N ts.dropLast fs.dropLast := by
  cases h with
  | nil => exact .nil
  | snoc h _ hf =>
    rw [dropLast_concat, dropLast_concat]
    exact h.mono hf.le

theorem shareBelow (h : Pushed N ts fs) : ∀ f ∈ fs, ShareBelow N f := by
  induction h with
  | nil => simp
  | snoc _ _ hf ih =>
    rw [forall_mem_append, forall_mem_singleton]
    exact ⟨fun g hg => (ih g hg).mono hf.le, hf.below⟩

variable {R : Reading} {E : Env R.Value}

theorem sound (h : Pushed N ts fs) (hE : ∀ f ∈ fs, R.Holds f E) : ∀ t ∈ ts, R.Holds t E := by
  induction h with
  | nil => simp
  | snoc _ _ hf ih =>
    rw [forall_mem_append, forall_mem_singleton] at hE ⊢
    exact ⟨ih hE.1, hf.sound R E hE.2⟩

theorem exists_env (h : Pushed N ts fs) (hE : ∀ t ∈ ts, R.Holds t E) :
    ∃ E', Env.AgreeBelow 0 E E' ∧ ∀ f ∈ fs, R.Holds f E' := by
  induction h with
  | nil => exact ⟨E, Env.Agree.refl _ E, by simp⟩
  | @snoc N M t f ts fs h ht hf ih =>
    rw [forall_mem_append, forall_mem_singleton] at hE
    rcases ih hE.1 with ⟨E₁, hagree, hfs⟩
    have ht₁ := (holds_congr t (agree_of_shareBelow ht hagree)).mp hE.2
    -- The latest formula gets its variables last, and earlier ones do not mention them.
    rcases hf.exists_env R E₁ ht₁ with ⟨E₂, hagree₂, hf₂⟩
    refine ⟨E₂, Env.Agree.trans hagree (hagree₂.mono (Nat.zero_le N)), ?_⟩
    rw [forall_mem_append, forall_mem_singleton]
    refine ⟨fun g hg => ?_, hf₂⟩
    exact (holds_congr g (agree_of_shareBelow (h.shareBelow g hg) hagree₂)).mp
      (hfs g hg)

/-- The formulas that were pushed entail what the assumed terms do. -/
theorem entails_iff (h : Pushed N ts fs) (hu : Unfolds N M t ds q) (ht : ShareBelow 0 t)
    (hps : ∀ E : Env R.Value, (∀ p ∈ ps, R.Holds p E) ↔ ∀ d ∈ ds, R.Holds d E) :
    R.Entails (fs ++ ps) q ↔ R.Entails ts t := by
  constructor
  · intro hentails E hE
    -- First the pushed formulas are made to hold, then the definitions of the query.
    rcases h.exists_env hE with ⟨E₁, hagree, hfs⟩
    rcases hu.exists_env R E₁ with ⟨E₂, hagree₂, hds⟩
    have hfs₂ : ∀ f ∈ fs, R.Holds f E₂ := fun f hf =>
      (holds_congr f
        (agree_of_shareBelow (h.shareBelow f hf) hagree₂)).mp (hfs f hf)
    have hq : R.Holds q E₂ :=
      hentails E₂ (forall_mem_append.mpr ⟨hfs₂, (hps E₂).mpr hds⟩)
    have hagree' : Env.AgreeBelow 0 E E₂ :=
      Env.Agree.trans hagree (hagree₂.mono (Nat.zero_le N))
    exact (holds_congr t (agree_of_shareBelow ht hagree')).mpr
      ((hu.holds_iff R E₂ hds).mp hq)
  · intro hentails E hE
    rw [forall_mem_append] at hE
    have hds := (hps E).mp hE.2
    exact (hu.holds_iff R E hds).mpr (hentails E (h.sound hE.1))

end Pushed

end Wire

end Vouch
