import Mathlib.Data.List.Basic
import Mathlib.Logic.Relation
import Vouch.Prover.Session

/-!
# Calls to a Prover

The state of a prover and the outside are arbitrary, every call may fail, and a call
that fails may or may not have done what it was for. A call that succeeds has done what
it was for, once.

## Main definitions

* `ProverM.Yields`: A computation has an outcome.
* `Prover.Tracks`: A call that succeeds does what it is for.
* `Prover.Genuine`: The prover said that it proves what it accepts.
* `Prover.Moves`: A world becomes another by calls.

## Theorems

* `Prover.Tracks.tell`: A prover that took terms holds them.
* `Prover.Tracks.retracts`: One that retracted them does not.
-/

namespace Vouch

open List

variable {ω β α γ : Type}

namespace ProverM

/-- Started with a prover in a state and in a world, the computation has an
    outcome and leaves the prover in another state and in another world. -/
def Yields (m : ProverM ω β α) (b : β) (w : World ω) (r : Except ProverError α) (b' : β)
    (w' : World ω) : Prop :=
  (m.run.run b).run w = ((r, b'), w')

variable {m : ProverM ω β α} {f : α → ProverM ω β γ} {b b' b₁ : β} {w w' w₁ : World ω}

theorem exists_yields (m : ProverM ω β α) (b : β) (w : World ω) : ∃ r b' w', Yields m b w r b' w' :=
  ⟨_, _, _, rfl⟩

theorem run_bind_of_ok {a : α} (h : Yields m b w (.ok a) b₁ w₁) :
    ((m >>= f).run.run b).run w = ((f a).run.run b₁).run w₁ := by
  unfold Yields at h
  rw [ExceptT.run_bind, StateT.run_bind, StateT.run_bind, h]
  rfl

variable {e : ProverError}

theorem run_bind_of_error (h : Yields m b w (.error e) b₁ w₁) :
    ((m >>= f).run.run b).run w = ((.error e, b₁), w₁) := by
  unfold Yields at h
  rw [ExceptT.run_bind, StateT.run_bind, StateT.run_bind, h]
  rfl

theorem Yields.of_bind_ok {c : γ} (h : Yields (m >>= f) b w (.ok c) b' w') :
    ∃ a b₁ w₁, Yields m b w (.ok a) b₁ w₁ ∧ Yields (f a) b₁ w₁ (.ok c) b' w' := by
  rcases exists_yields m b w with ⟨r, b₁, w₁, hm⟩
  cases r with
  | ok a => exact ⟨a, b₁, w₁, hm, (run_bind_of_ok hm).symm.trans h⟩
  | error e =>
    have heq := (run_bind_of_error (f := f) hm).symm.trans h
    cases heq

theorem Yields.of_bind_error (h : Yields (m >>= f) b w (.error e) b' w') :
    Yields m b w (.error e) b' w' ∨
      ∃ a b₁ w₁, Yields m b w (.ok a) b₁ w₁ ∧ Yields (f a) b₁ w₁ (.error e) b' w' := by
  rcases exists_yields m b w with ⟨r, b₁, w₁, hm⟩
  cases r with
  | ok a => exact Or.inr ⟨a, b₁, w₁, hm, (run_bind_of_ok hm).symm.trans h⟩
  | error e' =>
    have heq := (run_bind_of_error (f := f) hm).symm.trans h
    cases heq
    exact Or.inl hm

end ProverM

open ProverM

namespace Prover

/-- A prover that starts holds no assumptions, and a call that succeeds does what
    it is for. A call that fails may do anything. -/
structure Tracks (P : Prover ω β) (H : ω → β → List Term → Prop) : Prop where
  start : ∀ {w b w'}, P.start.run w = (.ok b, w') → H w'.outside b []
  assume : ∀ {ts t b w b' w'}, H w.outside b ts → Yields (P.assume t) b w (.ok ()) b' w' →
    H w'.outside b' (ts ++ [t])
  retract : ∀ {ts t b w b' w'}, H w.outside b (ts ++ [t]) → Yields P.retract b w (.ok ()) b' w' →
    H w'.outside b' ts
  isValid : ∀ {ts t b w v b' w'}, H w.outside b ts → Yields (P.isValid t) b w (.ok v) b' w' →
    H w'.outside b' ts

/-- After a failure that a session survives, the prover counts as holding
    whatever is wanted. -/
structure Excuses (P : Prover ω β) (H : ω → β → List Term → Prop) : Prop where
  assume : ∀ {t b w e b' w'}, Yields (P.assume t) b w (.error e) b' w' → e.isFatal = false →
    ∀ ts, H w'.outside b' ts
  retract : ∀ {b w e b' w'}, Yields P.retract b w (.error e) b' w' → e.isFatal = false →
    ∀ ts, H w'.outside b' ts
  isValid : ∀ {t b w e b' w'}, Yields (P.isValid t) b w (.error e) b' w' → e.isFatal = false →
    ∀ ts, H w'.outside b' ts

/-- The prover said that it proves what it accepts, and has only been called since. -/
inductive Genuine (P : Prover ω β) : β → Prop
  | launched {b} : P.isStub b = false → Genuine P b
  | assume {t b w r b' w'} : Genuine P b → Yields (P.assume t) b w r b' w' → Genuine P b'
  | retract {b w r b' w'} : Genuine P b → Yields P.retract b w r b' w' → Genuine P b'
  | isValid {t b w r b' w'} : Genuine P b → Yields (P.isValid t) b w r b' w' → Genuine P b'

/-- A world becomes another by one call. `Q` says which queries may be put to the
    prover, in which worlds and in which states. -/
inductive Step (P : Prover ω β) (Q : World ω → β → Term → Prop) : World ω → World ω → Prop
  | start {w r w'} : P.start.run w = (r, w') → Step P Q w w'
  | assume {t b w r b' w'} : Yields (P.assume t) b w r b' w' → Step P Q w w'
  | retract {b w r b' w'} : Yields P.retract b w r b' w' → Step P Q w w'
  | isValid {t b w r b' w'} : Q w b t → Yields (P.isValid t) b w r b' w' → Step P Q w w'
  | terminate (b : β) (w : World ω) : Step P Q w ((P.terminate b).run w).2

/-- A world becomes another by calls. -/
def Moves (P : Prover ω β) (Q : World ω → β → Term → Prop) : World ω → World ω → Prop :=
  Relation.ReflTransGen (Step P Q)

variable {P : Prover ω β} {Q : World ω → β → Term → Prop} {H : ω → β → List Term → Prop}

theorem Moves.refl (w : World ω) : Moves P Q w w :=
  Relation.ReflTransGen.refl

theorem Moves.trans {w₁ w₂ w₃ : World ω} (h : Moves P Q w₁ w₂) (h' : Moves P Q w₂ w₃) :
    Moves P Q w₁ w₃ :=
  Relation.ReflTransGen.trans h h'

variable {w w' : World ω} {f : α → ProverM ω β Unit} {ts : List Term}

theorem Step.moves (h : Step P Q w w') : Moves P Q w w' :=
  Relation.ReflTransGen.single h

theorem Moves.mono {Q' : World ω → β → Term → Prop} (hQ : ∀ w b t, Q w b t → Q' w b t)
    (h : Moves P Q w w') : Moves P Q' w w' := by
  induction h with
  | refl => exact Moves.refl w
  | tail _ hstep ih =>
    refine Relation.ReflTransGen.tail ih ?_
    cases hstep with
    | start h => exact .start h
    | assume h => exact .assume h
    | retract h => exact .retract h
    | isValid hq h => exact .isValid (hQ _ _ _ hq) h
    | terminate b => exact .terminate b _

theorem Moves.keeps {K : World ω → Prop} (hK : ∀ w w', Step P Q w w' → K w → K w')
    (h : Moves P Q w w') (hw : K w) : K w' := by
  induction h with
  | refl => exact hw
  | tail _ hstep ih => exact hK _ _ hstep ih

theorem related_forM {R : β × World ω → β × World ω → Prop} (hrefl : ∀ x, R x x)
    (htrans : ∀ {x y z}, R x y → R y z → R x z)
    (hf : ∀ a {b w r b' w'}, Yields (f a) b w r b' w' → R (b, w) (b', w')) :
    ∀ {as : List α} {b w r b' w'}, Yields (as.forM f) b w r b' w' → R (b, w) (b', w') := by
  intro as
  induction as with
  | nil =>
    intro b w r b' w' h
    cases h
    exact hrefl _
  | cons a as ih =>
    intro b w r b' w' h
    rcases exists_yields (f a) b w with ⟨r₁, b₁, w₁, hfirst⟩
    cases r₁ with
    | ok u => exact htrans (hf a hfirst) (ih ((run_bind_of_ok hfirst).symm.trans h))
    | error e =>
      cases (run_bind_of_error hfirst).symm.trans h
      exact hf a hfirst

theorem moves_forM (hf : ∀ a {b w r b' w'}, Yields (f a) b w r b' w' → Moves P Q w w') :
    ∀ {as : List α} {b w r b' w'}, Yields (as.forM f) b w r b' w' → Moves P Q w w' :=
  related_forM (R := fun x y => Moves P Q x.2 y.2) (fun _ => .refl _) Moves.trans hf

theorem moves_tell {b w r b' w'} (h : Yields (Session.tell P ts) b w r b' w') : Moves P Q w w' :=
  moves_forM (fun _ => fun hcall => (Step.assume hcall).moves) h

/-- The induction is on what is still to be told. -/
theorem Tracks.tell (hP : P.Tracks H) : ∀ {ts us : List Term} {b w b' w'},
    H w.outside b us → Yields (Session.tell P ts) b w (.ok ()) b' w' →
      H w'.outside b' (us ++ ts) := by
  intro ts
  induction ts with
  | nil =>
    intro us b w b' w' hheld h
    cases h
    rw [append_nil]
    exact hheld
  | cons t ts ih =>
    intro us b w b' w' hheld h
    rcases Yields.of_bind_ok h with ⟨_, b₁, w₁, hfirst, hrest⟩
    -- The first term joins what was held before.
    rw [← singleton_append, ← append_assoc]
    exact ih (hP.assume hheld hfirst) hrest

theorem Tracks.retracts (hP : P.Tracks H) :
    ∀ {us xs : List Term} {b w b' w'}, H w.outside b (ts ++ us) → us.length = xs.length →
      Yields (xs.forM fun _ => P.retract) b w (.ok ()) b' w' → H w'.outside b' ts := by
  intro us xs
  induction xs generalizing us with
  | nil =>
    intro b w b' w' hheld hlength h
    cases h
    rw [eq_nil_of_length_eq_zero hlength, append_nil] at hheld
    exact hheld
  | cons x xs ih =>
    intro b w b' w' hheld hlength h
    rcases Yields.of_bind_ok h with ⟨_, b₁, w₁, hfirst, hrest⟩
    -- The first retraction takes back the last of the terms.
    rcases eq_nil_or_concat us with rfl | ⟨us', u, rfl⟩
    · simp at hlength
    · rw [concat_eq_append, ← append_assoc] at hheld
      exact ih (hP.retract hheld hfirst) (by simpa using hlength) hrest

theorem Excuses.retracts (hP : P.Excuses H) : ∀ {xs : List Term} {b w e b' w'},
    Yields (xs.forM fun _ => P.retract) b w (.error e) b' w' → e.isFatal = false →
      ∀ ts, H w'.outside b' ts := by
  intro xs
  induction xs with
  | nil =>
    intro b w e b' w' h
    cases h
  | cons x xs ih =>
    intro b w e b' w' h he
    -- The first retraction failed, or one of the others did.
    rcases Yields.of_bind_error h with h | ⟨_, b₁, w₁, _, hrest⟩
    · exact hP.retract h he
    · exact ih hrest he

theorem Genuine.retracts {b w r b' w'} (hb : P.Genuine b)
    (h : Yields (ts.forM fun _ => P.retract) b w r b' w') : P.Genuine b' := by
  have hrel := related_forM (R := fun x y => P.Genuine x.1 → P.Genuine y.1) (fun _ => id)
    (fun h h' => h' ∘ h) (fun _ _ _ _ _ _ hcall hb => hb.retract hcall) h
  exact hrel hb

end Prover

end Vouch
