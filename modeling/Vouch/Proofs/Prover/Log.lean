import Vouch.Proofs.Prover.Erasure

/-!
# The Log of a Prover

A prover whose calls are written down beside its outside, each with what came of
it. What a prover holds can be read off the log: what it was told since it was
started, less what was retracted. That is known only as long as every call succeeds.
Nothing is assumed about the prover that is watched.

## Main definitions

* `ProverCall.heldAfter`: What is held after some calls.
* `Prover.observed`: A prover with its calls written down.

## Theorems

* `Prover.covers_observed`: It behaves the same whether it is watched or not.
* `Prover.tracks_observed`: It holds what the log says.
* `Prover.log_of_moves`: The log only grows.
-/

namespace Vouch

open List ProverM

variable {ω β α : Type}

/-- A call to a prover in some state, and what came of it. -/
inductive ProverCall (β : Type)
  | start (r : Except ProverError β)
  | assume (b : β) (t : Term) (r : Except ProverError Unit)
  | retract (b : β) (r : Except ProverError Unit)
  | isValid (b : β) (t : Term) (r : Except ProverError Bool)
  | terminate (b : β)

namespace ProverCall

/-- Whether the call failed in a way that a session survives. -/
def isSlip : ProverCall β → Bool
  | assume _ _ (.error e) | retract _ (.error e) | isValid _ _ (.error e) => !e.isFatal
  | _ => false

/-- What is held after a call, if it is known what was held before. -/
def track (held : Option (List Term)) : ProverCall β → Option (List Term)
  | start (.ok _) => some []
  | assume _ t (.ok _) => held.map (· ++ [t])
  | retract _ (.ok _) => held.bind fun ts => if ts.isEmpty then none else some ts.dropLast
  | isValid _ _ (.ok _) => held
  | _ => none

/-- What the prover that was started last holds after all of the calls. It is
    unknown from the first failure on. -/
def heldAfter (calls : List (ProverCall β)) : Option (List Term) :=
  calls.foldl track none

theorem heldAfter_append_singleton (calls : List (ProverCall β)) (call : ProverCall β) :
    heldAfter (calls ++ [call]) = track (heldAfter calls) call := by
  simp [heldAfter]

end ProverCall

open ProverCall

/-- Do something in the world and write it down. -/
def World.noted (m : StateM (World ω) α) (note : α → ProverCall β) :
    StateM (World (ω × List (ProverCall β))) α := fun w =>
  let done := m.run w.plain
  (done.1, { supply := done.2.supply
             outside := (done.2.outside, w.outside.2 ++ [note done.1]) })

/-- Do something with a prover and write it down. -/
def ProverM.noted (m : ProverM ω β α) (note : β → Except ProverError α → ProverCall β) :
    ProverM (ω × List (ProverCall β)) β α :=
  ExceptT.mk fun b => World.noted (m.run.run b) fun done => note b done.1

namespace Prover

/-- The prover with its calls written down beside the outside. -/
def observed (p : Prover ω β) : Prover (ω × List (ProverCall β)) β where
  start := World.noted p.start .start
  assume t := (p.assume t).noted (.assume · t)
  retract := p.retract.noted .retract
  isValid t := (p.isValid t).noted (.isValid · t)
  terminate b := World.noted (p.terminate b) fun _ => .terminate b
  isStub := p.isStub

theorem covers_observed (p : Prover ω β) : p.observed.Covers Prod.fst p where
  start _ := rfl
  assume _ _ _ := rfl
  retract _ _ := rfl
  isValid _ _ _ := rfl
  terminate _ _ := rfl
  isStub _ := rfl

variable {w w' : World (ω × List (ProverCall β))} {m : ProverM ω β α}
  {note : β → Except ProverError α → ProverCall β}

theorem log_of_noted {m : StateM (World ω) α} {note : α → ProverCall β} {a : α}
    (h : (World.noted m note).run w = (a, w')) : w'.outside.2 = w.outside.2 ++ [note a] := by
  have hworld := congrArg (fun done => done.2.outside.2) h
  have hresult : (m.run w.plain).1 = a := congrArg Prod.fst h
  rw [← hresult]
  exact hworld.symm

theorem log_of_yields_noted {b b' : β} {r : Except ProverError α}
    (h : Yields (m.noted note) b w r b' w') : w'.outside.2 = w.outside.2 ++ [note b r] := by
  have hrun : (World.noted (m.run.run b) fun done => note b done.1).run w = ((r, b'), w') := h
  have hlog := log_of_noted hrun
  exact hlog

variable (p : Prover ω β)

/-- The log of a prover says what it holds, as long as every call succeeds. -/
theorem tracks_observed : p.observed.Tracks fun outside _ ts => heldAfter outside.2 = some ts where
  start h := by
    rw [log_of_noted h, heldAfter_append_singleton]
    rfl
  assume hheld h := by
    rw [log_of_yields_noted h, heldAfter_append_singleton, hheld]
    rfl
  -- Something is held, so there is something to retract.
  retract hheld h := by
    rw [log_of_yields_noted h, heldAfter_append_singleton, hheld]
    simp [track]
  isValid hheld h := by
    rw [log_of_yields_noted h, heldAfter_append_singleton, hheld]
    rfl

/-- The log has no failure that a session survives. -/
def NoSlips (calls : List (ProverCall β)) : Prop :=
  ∀ call ∈ calls, call.isSlip = false

theorem noSlips_append_singleton {calls : List (ProverCall β)} {call : ProverCall β} :
    NoSlips (calls ++ [call]) ↔ NoSlips calls ∧ call.isSlip = false := by
  simp [NoSlips, or_imp, forall_and]

theorem tracks_observed_of_noSlips :
    p.observed.Tracks fun outside _ ts => NoSlips outside.2 → heldAfter outside.2 = some ts where
  start h := fun _ => p.tracks_observed.start h
  assume hheld h := fun hslips => by
    rw [log_of_yields_noted h] at hslips
    exact p.tracks_observed.assume (hheld (noSlips_append_singleton.mp hslips).1) h
  retract hheld h := fun hslips => by
    rw [log_of_yields_noted h] at hslips
    exact p.tracks_observed.retract (hheld (noSlips_append_singleton.mp hslips).1) h
  isValid hheld h := fun hslips => by
    rw [log_of_yields_noted h] at hslips
    exact p.tracks_observed.isValid (hheld (noSlips_append_singleton.mp hslips).1) h

theorem not_noSlips_of_yields_noted {b b' : β} {e : ProverError}
    (h : Yields (m.noted note) b w (.error e) b' w') (hslip : (note b (.error e)).isSlip = true) :
    ¬NoSlips w'.outside.2 := by
  rw [log_of_yields_noted h, noSlips_append_singleton, hslip]
  simp

theorem excuses_observed :
    p.observed.Excuses fun outside _ ts => NoSlips outside.2 → heldAfter outside.2 = some ts where
  assume h he _ := fun hslips =>
    (not_noSlips_of_yields_noted h (by simp [isSlip, he]) hslips).elim
  retract h he _ := fun hslips =>
    (not_noSlips_of_yields_noted h (by simp [isSlip, he]) hslips).elim
  isValid h he _ := fun hslips =>
    (not_noSlips_of_yields_noted h (by simp [isSlip, he]) hslips).elim

variable {p}

theorem exists_log_of_step {Q : World (ω × List (ProverCall β)) → β → Term → Prop}
    (h : p.observed.Step Q w w') :
    ∃ call, w'.outside.2 = w.outside.2 ++ [call] ∧
      ∀ b t r, call = .isValid b t r → Q w b t := by
  cases h with
  | start h => exact ⟨_, log_of_noted h, fun _ _ _ heq => by cases heq⟩
  | assume h | retract h => exact ⟨_, log_of_yields_noted h, fun _ _ _ heq => by cases heq⟩
  | isValid hq h =>
    refine ⟨_, log_of_yields_noted h, fun b t r heq => ?_⟩
    cases heq
    exact hq
  | terminate b => exact ⟨.terminate b, rfl, fun _ _ _ heq => by cases heq⟩

/-- Calls are added at the end, and of the queries it is known when they were put. -/
theorem log_of_moves {Q : List (ProverCall β) → Term → Prop}
    (h : p.observed.Moves (fun v _ t => Q v.outside.2 t) w w') :
    ∃ calls, w'.outside.2 = w.outside.2 ++ calls ∧
      ∀ before b t r after, calls = before ++ .isValid b t r :: after →
        Q (w.outside.2 ++ before) t := by
  induction h with
  | refl => exact ⟨[], by simp, by simp⟩
  | @tail v v' _ hstep ih =>
    rcases ih with ⟨calls, hlog, hcalls⟩
    rcases exists_log_of_step hstep with ⟨call, hnew, hquery⟩
    refine ⟨calls ++ [call], by rw [hnew, hlog, append_assoc], ?_⟩
    intro before b t r after heq
    -- The query is the new entry, or it was there before.
    rcases eq_nil_or_concat after with rfl | ⟨after', last, rfl⟩
    · rcases append_inj' heq rfl with ⟨hbefore, hcall⟩
      rw [← hbefore, ← hlog]
      exact hquery b t r (singleton_inj.mp hcall)
    · rw [concat_eq_append, ← cons_append, ← append_assoc] at heq
      exact hcalls before b t r after' (append_inj' heq rfl).1

end Prover

end Vouch
