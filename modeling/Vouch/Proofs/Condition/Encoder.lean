import Vouch.Proofs.Lang.Meaning
import Vouch.Proofs.Term.Connectives

/-!
# What Encoding Computes

Encoding makes terms, remembers the pairs made for boolean variables, and may fail.
There is an account of what was made so far, and a computation leaves a larger one.

## Main definitions

* `Regime`: What goes with a state of encoding and which errors may occur.
* `Regime.Yields`: A computation leaves a larger account.
* `Encodes`: The same for stocks.

## Theorems

* `yields_bind`: One computation after another.
* `yields_foldlM`: A loop keeps up what each turn of it does.
* `yields_varTerms`: The pair found is as good as a new one.
-/

namespace Vouch

open List Term

/-- An account of what was made so far: which supplies it goes with, and what it says of
    the pair that is remembered for a variable. Some errors are allowed. -/
structure Regime (World : Type) [Preorder World] where
  fits : World → Supply → Prop
  pair : World → String → VarTerms → Prop
  mono : ∀ {w v x p}, w ≤ v → pair w x p → pair v x p
  error : ConditionError → Prop

namespace Regime

variable {World : Type} [Preorder World]

/-- The account goes with the state of encoding. -/
structure Serves (G : Regime World) (w : World) (k : Encoder) : Prop where
  supply : G.fits w k.supply
  pairs : ∀ x p, k.pairs.find? x = some p → G.pair w x p

/-- Started with the account, the computation leaves a larger one, in which its result
    is as described if it has one. If it fails, then with an error that is allowed. -/
def Yields {α : Type} (G : Regime World) (w : World) (m : Encode α) (Q : World → α → Prop) : Prop :=
  ∀ k, G.Serves w k → ∃ v, w ≤ v ∧ G.Serves v (m.run.run k).2 ∧
    (∀ a, (m.run.run k).1 = .ok a → Q v a) ∧ ∀ err, (m.run.run k).1 = .error err → G.error err

end Regime

section Rules

variable {World α β : Type} [Preorder World] {G : Regime World} {w : World}
  {Q : World → α → Prop} {R : World → β → Prop}

theorem yields_pure {a : α} (h : Q w a) : G.Yields w (pure a) Q := by
  refine fun k hk => ⟨w, le_rfl, hk, fun b hb => ?_, fun _ h => by cases h⟩
  rw [show b = a from (Except.ok.inj hb).symm]
  exact h

theorem yields_throw {err : ConditionError} (h : G.error err) : G.Yields w (throw err) Q := by
  refine fun _ hk => ⟨w, le_rfl, hk, fun _ h => ?_, fun _ h' => ?_⟩
  · cases h
  · exact Except.error.inj h' ▸ h

variable {f : α → Encode β} {m : Encode α}

/-- What the first computation leaves is what the second starts with. -/
theorem yields_bind (hm : G.Yields w m Q) (hf : ∀ v a, w ≤ v → Q v a → G.Yields v (f a) R) :
    G.Yields w (m >>= f) R := by
  intro k hk
  rcases hm k hk with ⟨v, hwv, hv, hok, herror⟩
  rw [ExceptT.run_bind, StateT.run_bind]
  rcases hmk : m.run.run k with ⟨r, k'⟩
  rw [hmk] at hv hok herror
  -- A failed run still leaves something behind, and so the account grows either way.
  cases r with
  | error err =>
    exact ⟨v, hwv, hv, fun b hb => (by cases hb), fun _ h => Except.error.inj h ▸ herror err rfl⟩
  | ok a =>
    rcases hf v a hwv (hok a rfl) k' hv with ⟨u, hvu, hu⟩
    exact ⟨u, hwv.trans hvu, hu⟩

theorem yields_lift {m : Fresh α} (h : Leaves G.fits w m Q) : G.Yields w (liftM m) Q := by
  intro k hk
  rcases h k.supply hk.supply with ⟨v, hwv, hv, hQ⟩
  refine ⟨v, hwv, ⟨hv, fun x p hp => G.mono hwv (hk.pairs x p hp)⟩, fun a ha => ?_,
    fun _ h => by cases h⟩
  rw [show a = (m.run k.supply).1 from (Except.ok.inj ha).symm]
  exact hQ

theorem Regime.Yields.mono {Q' : World → α → Prop} (hm : G.Yields w m Q)
    (h : ∀ v a, w ≤ v → Q v a → Q' v a) : G.Yields w m Q' := by
  intro k hk
  rcases hm k hk with ⟨v, hwv, hv, hok, herror⟩
  exact ⟨v, hwv, hv, fun a ha => h v a hwv (hok a ha), herror⟩

theorem Regime.Yields.and_fits (hm : G.Yields w m Q) :
    G.Yields w m fun v a => (∃ s, G.fits v s) ∧ Q v a := by
  intro k hk
  rcases hm k hk with ⟨v, hwv, hv, hok, herror⟩
  exact ⟨v, hwv, hv, fun a ha => ⟨⟨_, hv.supply⟩, hok a ha⟩, herror⟩

theorem Regime.Yields.exists_of_runFresh (hm : G.Yields w m Q) {supply : Supply}
    (hfits : G.fits w supply) {a : α} (h : (m.runFresh.run supply).1 = .ok a) :
    ∃ v, w ≤ v ∧ G.fits v (m.runFresh.run supply).2 ∧ Q v a := by
  rcases hm { supply } ⟨hfits, fun _ _ hp => by cases hp⟩ with ⟨v, hwv, hv, hok, _⟩
  exact ⟨v, hwv, hv.supply, hok a h⟩

theorem yields_mapM {R : α → World → β → Prop} (hmono : ∀ a v u b, v ≤ u → R a v b → R a u b) :
    ∀ {as : List α} {w : World},
    (∀ a ∈ as, ∀ v, w ≤ v → G.Yields v (f a) (R a)) →
    G.Yields w (as.mapM f) fun v bs => Forall₂ (fun b a => R a v b) bs as
  | [], w, _ => by
    rw [mapM_nil]
    exact yields_pure .nil
  | a :: as, w, h => by
    rw [mapM_cons]
    refine yields_bind (h a mem_cons_self w le_rfl) fun v b hwv hb => ?_
    refine yields_bind (yields_mapM hmono fun a' ha' u hvu =>
      h a' (mem_cons_of_mem _ ha') u (hwv.trans hvu)) fun u bs hvu hbs => ?_
    exact yields_pure (.cons (hmono a v u b hvu hb) hbs)

theorem yields_foldlM {f : β → α → Encode β} {as : List α} : ∀ {w : World} {b : β}, R w b →
    (∀ v b, w ≤ v → R v b → ∀ a ∈ as, G.Yields v (f b a) R) → G.Yields w (as.foldlM f b) R := by
  induction as with
  | nil => exact fun hb _ => yields_pure hb
  | cons a as ih =>
    intro w b hb hf
    rw [foldlM_cons]
    refine yields_bind (hf w b le_rfl hb a mem_cons_self) fun v b' hwv hb' => ?_
    exact ih hb' fun u b'' hvu hb'' a' ha' =>
      hf u b'' (hwv.trans hvu) hb'' a' (mem_cons_of_mem _ ha')

end Rules

theorem Ty.isBool_iff {T : Ty} : T.isBool = true ↔ T = .bool := by
  cases T <;> simp [Ty.isBool]

/-- The terms stand for a variable of a type. -/
structure Stock.Stands (W : Stock) (name : String) (ty : Ty) (p : VarTerms) : Prop where
  term : Term.Variable (valueName name) ty.sort W p.term
  formula : ty.isBool = true → ∃ f, p.formula = some f ∧ Term.Variable name .formula W f
  value : ty.isBool = false → p.formula = none

theorem Term.Variable.mono {n : String} {sort : TermSort} {W X : Stock} {r : Term}
    (h : Term.Variable n sort W r) (hWX : W ≤ X) : Term.Variable n sort X r :=
  ⟨h.has.mono hWX, h.name?, h.sort_eq⟩

theorem Stock.Stands.mono {W X : Stock} {name : String} {ty : Ty} {p : VarTerms}
    (h : W.Stands name ty p) (hWX : W ≤ X) : X.Stands name ty p := by
  refine ⟨h.term.mono hWX, fun hb => ?_, h.value⟩
  rcases h.formula hb with ⟨f, hf, hv⟩
  exact ⟨f, hf, hv.mono hWX⟩

/-- The stock fits the supply and has the pairs made so far. -/
structure Stock.Serves (W : Stock) (e : Encoder) : Prop where
  supply : W.Fits e.supply
  pairs : ∀ name p, e.pairs.find? name = some p → W.Stands name .bool p

/-- The stock is the account. All errors are allowed. -/
def Stock.regime : Regime Stock where
  fits := Stock.Fits
  pair W x p := W.Stands x .bool p
  mono hWX h := h.mono hWX
  error _ := True

/-- Started with the stock, the computation leaves a larger one, in which its
    result, if it has one, is as described. -/
abbrev Encodes {α : Type} (W : Stock) (m : Encode α) (Q : Stock → α → Prop) : Prop :=
  Stock.regime.Yields W m Q

section Runs

variable {α β : Type} {supply : Supply}

/-- What is left of a computation that began with nothing does not depend on the stock.
    -/
theorem Encodes.of_runFresh {m : Encode α} {P : α → Prop} {a : α}
    (hm : Encodes (Stock.empty supply.nextName) m fun _ a => P a)
    (h : (m.runFresh.run supply).1 = .ok a) : P a := by
  rcases hm.exists_of_runFresh (Stock.fits_empty supply) h with ⟨_, _, _, hP⟩
  exact hP

theorem exists_ok_of_isOk {ε : Type} {x : Except ε α} (h : x.isOk = true) : ∃ a, x = .ok a := by
  cases x with
  | ok a => exact ⟨a, rfl⟩
  | error err => cases h

theorem exists_ok_of_bind {m : Encode α} {f : α → Encode β} {b : β}
    (h : ((m >>= f).runFresh.run supply).1 = .ok b) : ∃ a, (m.runFresh.run supply).1 = .ok a := by
  rcases hm : m.run.run { supply } with ⟨r, e⟩
  cases r with
  | ok a => exact ⟨a, congrArg Prod.fst hm⟩
  | error err =>
    have hrun : ((m >>= f).run.run { supply }).1 = .error err := by
      rw [ExceptT.run_bind, StateT.run_bind, hm]
      rfl
    exact absurd (hrun.symm.trans h) (by simp)

end Runs

section Variables

variable {World : Type} [Preorder World] {G : Regime World} {w : World} {W : Stock} (c : Encoding)

theorem yields_variableType (x : String) (herror : G.error (.unknownVariable x)) :
    G.Yields w (c.variableType x) fun _ T => c.scope.varType? x = some T := by
  unfold Encoding.variableType
  split
  · next T h => exact yields_pure h
  · exact yields_throw herror

theorem builds_boolLit (th : Theory) (W : Stock) (b : Bool) :
    Builds W (th.boolLit b)
      (Operator { op := .lit, sort := .bool, payload := some (.bool b) } []) :=
  builds_literal W _ _ _

theorem varTerms_run (name : String) (e : Encoder) :
    (c.varTerms name .bool).run.run e = match e.pairs.find? name with
      | some pair => (.ok pair, e)
      | none =>
        (.ok ((c.linkedPair name).run e.supply).1,
          { supply := ((c.linkedPair name).run e.supply).2
            pairs := e.pairs.insert name ((c.linkedPair name).run e.supply).1 }) := by
  unfold Encoding.varTerms
  simp only [Ty.isBool, if_true]
  change (match e.pairs.find? name with
    | some pair => (pure pair : Encode VarTerms)
    | none => _).run.run e = _
  cases e.pairs.find? name <;> rfl

/-- A pair that is remembered was described when it was made. -/
theorem yields_varTerms {x : String} {T : Ty} {Q : World → VarTerms → Prop}
    (hfound : T = .bool → ∀ p, G.pair w x p → Q w p)
    (hpair : T = .bool → Leaves G.fits w (c.linkedPair x) fun v p => G.pair v x p ∧ Q v p)
    (hvar : T.isBool = false →
      Leaves G.fits w (Term.var (valueName x) T.sort) fun v t => Q v { term := t }) :
    G.Yields w (c.varTerms x T) Q := by
  cases hT : T.isBool with
  | false =>
    rw [Encoding.varTerms, hT]
    exact yields_bind (yields_lift (hvar hT)) fun v t _ ht => yields_pure ht
  | true =>
    have hbool := Ty.isBool_iff.mp hT
    subst hbool
    intro k hk
    rw [varTerms_run]
    split
    · next p hfind =>
      exact ⟨w, le_rfl, hk, fun a ha => Except.ok.inj ha ▸ hfound rfl p (hk.pairs x p hfind),
        fun _ h => by cases h⟩
    · rcases hpair rfl k.supply hk.supply with ⟨v, hwv, hv, hstands, hQ⟩
      refine ⟨v, hwv, ⟨hv, fun n p hp => ?_⟩, fun a ha => Except.ok.inj ha ▸ hQ,
        fun _ h => by cases h⟩
      -- The new pair is remembered under its own name and no other.
      rw [NameMap.find?_insert] at hp
      split at hp
      · next hn =>
        rw [hn, ← Option.some.inj hp]
        exact hstands
      · exact G.mono hwv (hk.pairs n p hp)

variable (hth : c.theory.Advances)
include hth

theorem builds_linkedPair (name : String) :
    Builds W (c.linkedPair name) fun X p => X.Stands name .bool p := by
  unfold Encoding.linkedPair
  refine leaves_bind (builds_var W name .formula) fun X₁ f h₁ hf => ?_
  refine leaves_bind (builds_var X₁ (valueName name) .bool) fun X₂ v h₂ hv => ?_
  refine leaves_bind (builds_boolLit c.theory X₂ true) fun X₃ lit h₃ hlit => ?_
  refine leaves_bind (Theory.builds_operator hth (by simp [hv.has.mono h₃, hlit.has]) .formula
    (by simp) (by simp)) fun X₄ eq h₄ heq => ?_
  refine leaves_bind (Theory.builds_operator hth ?_ .formula (by simp) (by simp))
    fun X₅ link h₅ _ => ?_
  · simp [heq.has, hf.has.mono (h₂.trans (h₃.trans h₄))]
  refine leaves_bind (builds_make (by simp) _ _) fun X₆ term h₆ hterm => ?_
  refine leaves_pure ⟨hterm.variable, fun _ => ⟨f, rfl, hf.mono ?_⟩,
    fun h => by simp [Ty.isBool] at h⟩
  exact h₂.trans (h₃.trans (h₄.trans (h₅.trans h₆)))

theorem encodes_varTerms (name : String) (ty : Ty) :
    Encodes W (c.varTerms name ty) fun X p => X.Stands name ty p := by
  refine yields_varTerms c (fun hty _ h => hty ▸ h) (fun hty => ?_) fun hty => ?_
  · refine (builds_linkedPair c hth name).mono fun X p _ h => ⟨h, ?_⟩
    rwa [hty]
  · refine (builds_var W (valueName name) ty.sort).mono fun X t _ ht => ?_
    exact ⟨ht, fun h => by simp [hty] at h, fun _ => rfl⟩

end Variables

end Vouch
