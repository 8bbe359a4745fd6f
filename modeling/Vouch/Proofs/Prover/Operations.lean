import Vouch.Proofs.Prover.Calls

/-!
# What the Operations of a Session Do

One description for each operation, which lists all that can come of it. Later proofs go
through the cases of these descriptions and never look at how an operation is put
together.

## Main definitions

* `Session.Asked`: What can come of asking.
* `Session.Launched`: What can come of starting a prover.

## Theorems

* `Session.assume_cases`: What can come of an assumption, and so on.
* `Session.withScope_cases`: What can come of doing something in a scope.
-/

namespace Vouch

open ProverM

variable {ω β α : Type}

namespace Session

/-- The session with its prover in the given state and the world as given. -/
def now (s : Session ω β) (b : β) (w : World ω) : Session ω β :=
  { s with world := w, phase := .started (.prover b) }

/-- The session after a failure of its prover. -/
def afterError (s : Session ω β) (e : ProverError) : Session ω β :=
  if e.isFatal then s.fail else s

/-- What can come of asking a question in a session that was started. -/
inductive Asked (d : α) (q : ProverM ω β α) (s : Session ω β) :
    Except ProverError α → Session ω β → Prop
  | nobody : s.phase = .started .nobody → Asked d q s (.ok d) s
  | answered {b a b' w} : s.phase = .started (.prover b) →
      Yields q b s.world (.ok a) b' w → Asked d q s (.ok a) (s.now b' w)
  | failed {b e b' w} : s.phase = .started (.prover b) →
      Yields q b s.world (.error e) b' w →
      Asked d q s (.error e) ((s.now b' w).afterError e)

/-- Nothing changed in the books of a session. -/
structure SameBooks (s s' : Session ω β) : Prop where
  globals : s'.globals = s.globals
  scopes : s'.scopes = s.scopes
  counts : s'.counts = s.counts
  degraded : s'.degraded = s.degraded

theorem sameBooks_fail (s : Session ω β) : SameBooks s s.fail := by
  unfold fail
  split <;> exact ⟨rfl, rfl, rfl, rfl⟩

theorem sameBooks_afterError (s : Session ω β) (e : ProverError) :
    SameBooks s (s.afterError e) := by
  unfold afterError
  split
  · exact sameBooks_fail s
  · exact ⟨rfl, rfl, rfl, rfl⟩

theorem world_afterError (s : Session ω β) (e : ProverError) :
    (s.afterError e).world = s.world := by
  unfold afterError fail
  split
  · split <;> rfl
  · rfl

section Asking

variable {d : α} {q : ProverM ω β α} {s s' : Session ω β} {r : Except ProverError α}

theorem run_track_error (e : ProverError) (s : Session ω β) :
    (track (.error e : Except ProverError α)).run.run s = (.error e, s.afterError e) := by
  unfold track afterError
  cases h : e.isFatal
  · simp only [h]
    rfl
  · simp only [h]
    rfl

variable {backend : Backend β} {f : Backend β → SessionM ω β α}

theorem asked_ask (h : s.phase = .started backend) :
    Asked d q s ((ask d q backend).run.run s).1
      ((ask d q backend).run.run s).2 := by
  cases backend with
  | nobody => exact .nobody h
  | prover b =>
    rcases exists_yields q b s.world with ⟨r, b', w, hq⟩
    -- The state of the prover is stored first, and then the outcome is looked at.
    have hrun : (ask d q (.prover b)).run.run s = (track r).run.run (s.now b' w) := by
      unfold Yields at hq
      change (track ((q.run.run b).run s.world).1.1).run.run
        (s.now ((q.run.run b).run s.world).1.2 ((q.run.run b).run s.world).2) = _
      rw [hq]
    rw [hrun]
    cases r with
    | ok a => exact .answered h hq
    | error e =>
      rw [run_track_error]
      exact .failed h hq

theorem Asked.sameBooks (h : Asked d q s r s') : SameBooks s s' := by
  cases h with
  | nobody | answered => exact ⟨rfl, rfl, rfl, rfl⟩
  | @failed b e b' w =>
    have hnow : SameBooks s (s.now b' w) := ⟨rfl, rfl, rfl, rfl⟩
    have herror := sameBooks_afterError (s.now b' w) e
    exact ⟨herror.globals.trans hnow.globals, herror.scopes.trans hnow.scopes,
      herror.counts.trans hnow.counts, herror.degraded.trans hnow.degraded⟩

theorem Asked.moves {P : Prover ω β} {Q : World ω → β → Term → Prop} (h : Asked d q s r s')
    (hq : ∀ {b r b' w'}, s.phase = .started (.prover b) → Yields q b s.world r b' w' →
      P.Moves Q s.world w') : P.Moves Q s.world s'.world := by
  cases h with
  | nobody => exact .refl _
  | answered hphase hyields => exact hq hphase hyields
  | failed hphase hyields =>
    rw [world_afterError]
    exact hq hphase hyields

theorem Asked.usable {a : α} (h : Asked d q s (.ok a) s') : s'.phase.isFailed = false := by
  cases h with
  | nobody hphase =>
    rw [hphase]
    rfl
  | answered => rfl

theorem refused_or_started (s : Session ω β) :
    (∀ backend, s.phase ≠ .started backend) ∨ ∃ backend, s.phase = .started backend := by
  by_cases h : ∃ backend, s.phase = .started backend
  · exact .inr h
  · exact .inl fun backend hb => h ⟨backend, hb⟩

theorem run_live_of_started (h : s.phase = .started backend) :
    (live >>= f).run.run s = (f backend).run.run s := by
  rcases s with ⟨w, phase, globals, scopes, degraded, counts⟩
  cases h
  rfl

theorem exists_run_live_of_refused (h : ∀ backend, s.phase ≠ .started backend) :
    ∃ e, (live >>= f).run.run s = (.error e, s) := by
  rcases s with ⟨w, phase, globals, scopes, degraded, counts⟩
  cases phase with
  | uninitialized => exact ⟨.notStarted, rfl⟩
  | failed backend => exact ⟨.sessionFailed, rfl⟩
  | started backend => exact absurd rfl (h backend)

end Asking

section Operations

variable (P : Prover ω β) (s : Session ω β)

theorem isValid_cases (t : Term) :
    (∃ e, (∀ backend, s.phase ≠ .started backend) ∧ (isValid P t).run.run s = (.error e, s)) ∨
    ∃ r s', Asked true (P.isValid t) s r s' ∧ (isValid P t).run.run s = (r, s') := by
  rcases refused_or_started s with h | ⟨backend, h⟩
  · rcases exists_run_live_of_refused (f := ask true (P.isValid t)) h with ⟨e, hrun⟩
    exact .inl ⟨e, h, hrun⟩
  · exact .inr ⟨_, _, asked_ask h, run_live_of_started h⟩

theorem assume_cases (t : Term) :
    (∃ e, (∀ backend, s.phase ≠ .started backend) ∧ (assume P t).run.run s = (.error e, s)) ∨
    (∃ s', Asked () (P.assume t) s (.ok ()) s' ∧ (assume P t).run.run s = (.ok (), s'.record t)) ∨
    ∃ e s', Asked () (P.assume t) s (.error e) s' ∧ (assume P t).run.run s = (.error e, s') := by
  have hassume : assume P t = (live >>= fun backend =>
      ask () (P.assume t) backend >>= fun _ => modifyThe (Session ω β) (record t)) := rfl
  rcases refused_or_started s with h | ⟨backend, h⟩
  · rcases exists_run_live_of_refused (f := fun backend => ask () (P.assume t) backend >>= fun _ =>
      modifyThe (Session ω β) (record t)) h with ⟨e, hrun⟩
    exact .inl ⟨e, h, hassume ▸ hrun⟩
  · have hasked := asked_ask (d := ()) (q := P.assume t) h
    have hrun := run_live_of_started (f := fun backend => ask () (P.assume t) backend >>= fun _ =>
      modifyThe (Session ω β) (record t)) h
    rw [← hassume, ExceptT.run_bind, StateT.run_bind] at hrun
    -- Only what was told is recorded.
    rcases hout : (ask () (P.assume t) backend).run.run s with ⟨r, s'⟩
    rw [hout] at hasked hrun
    cases r with
    | ok u => exact .inr (.inl ⟨s', hasked, hrun⟩)
    | error e => exact .inr (.inr ⟨e, s', hasked, hrun⟩)

theorem retractAll_cases (ts : List Term) :
    ((∀ backend, s.phase ≠ .started backend) ∧ (retractAll P ts).run.run s = (.ok (), s)) ∨
    ∃ r s', Asked () (ts.forM fun _ => P.retract) s r s' ∧
      (retractAll P ts).run.run s = (r, s') := by
  rcases refused_or_started s with h | ⟨backend, h⟩
  · refine .inl ⟨h, ?_⟩
    rcases s with ⟨w, phase, globals, scopes, degraded, counts⟩
    cases phase with
    | started backend => exact absurd rfl (h backend)
    | uninitialized | failed backend => rfl
  · refine .inr ⟨_, _, asked_ask h, ?_⟩
    rcases s with ⟨w, phase, globals, scopes, degraded, counts⟩
    cases h
    rfl

/-- The session with one more scope. -/
def pushed : Session ω β :=
  { s with
    scopes := [] :: s.scopes
    counts := { s.counts with pushes := s.counts.pushes + 1 } }

theorem push_cases :
    (∃ e, (∀ backend, s.phase ≠ .started backend) ∧
      (push (ω := ω) (β := β)).run.run s = (.error e, s)) ∨
    ((∃ backend, s.phase = .started backend) ∧ push.run.run s = (.ok (), s.pushed)) := by
  rcases refused_or_started s with h | ⟨backend, h⟩
  · rcases exists_run_live_of_refused (f := fun _ => modifyThe (Session ω β) pushed) h with
      ⟨e, hrun⟩
    exact .inl ⟨e, h, hrun⟩
  · exact .inr ⟨⟨backend, h⟩, run_live_of_started h⟩

/-- The session without its innermost scope. -/
def popped (scopes : List (List Term)) : Session ω β :=
  { s with scopes, counts := { s.counts with pops := s.counts.pops + 1 } }

theorem pop_cases :
    (s.scopes = [] ∧ (pop P).run.run s = (.error .scopeUnderflow, s)) ∨
    ∃ scope scopes, s.scopes = scope :: scopes ∧
      (pop P).run.run s = (retractAll P scope).run.run (s.popped scopes) := by
  rcases s with ⟨w, phase, globals, scopes, degraded, counts⟩
  cases scopes with
  | nil => exact .inl ⟨rfl, rfl⟩
  | cons scope scopes => exact .inr ⟨scope, scopes, rfl, rfl⟩

theorem clearGlobals_cases :
    (s.scopes ≠ [] ∧ (clearGlobals P).run.run s = (.error .scopeUnderflow, s)) ∨
    (s.scopes = [] ∧
      (clearGlobals P).run.run s = (retractAll P s.globals).run.run { s with globals := [] }) := by
  rcases s with ⟨w, phase, globals, scopes, degraded, counts⟩
  cases scopes with
  | nil => exact .inr ⟨rfl, rfl⟩
  | cons scope scopes => exact .inl ⟨by simp, rfl⟩

theorem run_passOn (r : Except ProverError α) (closed : Except ProverError Unit)
    (s : Session ω β) :
    (do let value ← liftExcept r; liftExcept closed; return value : SessionM ω β α).run.run s =
      (r.bind fun a => closed.map fun _ => a, s) := by
  cases r with
  | error e => rfl
  | ok a => cases closed <;> rfl

theorem withScope_cases (body : SessionM ω β α) :
    (∃ e, (∀ backend, s.phase ≠ .started backend) ∧ (withScope P body).run.run s = (.error e, s)) ∨
    ∃ r s₁ closed s₂, (∃ backend, s.phase = .started backend) ∧
      body.run.run s.pushed = (r, s₁) ∧
      (popMany P (s₁.depth - s.depth) (.ok ())).run s₁ = (closed, s₂) ∧
      (withScope P body).run.run s = (r.bind fun a => closed.map fun _ => a, s₂) := by
  have hrun : (withScope P body).run.run s = (push >>= fun _ => do
      let r ← ExceptT.lift body.run
      let opened := (← getThe (Session ω β)).depth - s.depth
      let closed ← ExceptT.lift (popMany P opened (.ok ()))
      let value ← liftExcept r
      liftExcept closed
      return value).run.run s := rfl
  rw [ExceptT.run_bind, StateT.run_bind] at hrun
  rcases push_cases s with ⟨e, hphase, hpush⟩ | ⟨hphase, hpush⟩
  · rw [hpush] at hrun
    exact .inl ⟨e, hphase, hrun⟩
  · rw [hpush] at hrun
    rcases hbody : body.run.run s.pushed with ⟨r, s₁⟩
    rcases hclose : (popMany P (s₁.depth - s.depth) (.ok ())).run s₁ with ⟨closed, s₂⟩
    refine .inr ⟨r, s₁, closed, s₂, hphase, rfl, hclose, hrun.trans ?_⟩
    -- Both outcomes are known by now; what is left is which of them is passed on.
    let depth := (body.run.run s.pushed).2.depth - s.depth
    refine (run_passOn (body.run.run s.pushed).1
      ((popMany P depth (.ok ())).run (body.run.run s.pushed).2).1
      ((popMany P depth (.ok ())).run (body.run.run s.pushed).2).2).trans ?_
    simp only [depth, hbody, hclose]

theorem exists_popMany_succ (n : Nat) (closed : Except ProverError Unit) :
    ∃ closed', (popMany P (n + 1) closed).run s =
      (popMany P n closed').run ((pop P).run.run s).2 := by
  rw [popMany, StateT.run_bind]
  rcases (pop P).run.run s with ⟨r, s'⟩
  cases r with
  | ok u => exact ⟨closed, rfl⟩
  | error e => exact ⟨.error e, rfl⟩

theorem popMany_one : (popMany P 1 (.ok ())).run s = (pop P).run.run s := by
  rw [popMany, StateT.run_bind]
  rcases (pop P).run.run s with ⟨r, s'⟩
  cases r <;> rfl

/-- What can come of starting a prover: it is told the global axioms, or the
    session goes on without one. Queries are not put to it. -/
inductive Launched : Session ω β → Prop
  | told {b b' w w'} : P.start.run s.world = (.ok b, w) →
      Yields (tell P s.globals) b w (.ok ()) b' w' →
      Launched { s with
        world := w', phase := .started (.prover b'), degraded := P.isStub b' }
  | alone {w} : P.Moves (fun _ _ _ => False) s.world w →
      Launched { s with world := w, phase := .started .nobody, degraded := true }

theorem run_inWorld (m : StateM (World ω) α) :
    (inWorld m).run s = pure ((m.run s.world).1, { s with world := (m.run s.world).2 }) :=
  rfl

theorem launched : Launched P s ((launch P).run s).2 := by
  unfold launch
  rw [StateT.run_bind, run_inWorld, pure_bind]
  rcases hstart : P.start.run s.world with ⟨e | b, w⟩
  · exact .alone (Prover.Step.start hstart).moves
  · rcases exists_yields (tell P s.globals) b w with ⟨r, b', w', htell⟩
    have htold : ((tell P s.globals).run.run b).run w = ((r, b'), w') := htell
    simp only [StateT.run_bind, StateT.run_get, run_inWorld, pure_bind, htold]
    cases r with
    | ok u => exact .told hstart htell
    | error e =>
      -- A prover that did not take the axioms is stopped.
      have hmoves : P.Moves (fun _ _ _ => False) s.world w' :=
        (Prover.Step.start hstart).moves.trans (Prover.moves_tell htell)
      exact .alone (hmoves.trans (Prover.Step.terminate b' w').moves)

theorem start_cases :
    ((∃ backend, s.phase = .started backend) ∧ (start P).run s = ((), s)) ∨
    ((∀ backend, s.phase ≠ .started backend) ∧ (start P).run s = (launch P).run s) := by
  rcases s with ⟨w, phase, globals, scopes, degraded, counts⟩
  cases phase with
  | started backend => exact .inl ⟨⟨backend, rfl⟩, rfl⟩
  | uninitialized | failed backend => exact .inr ⟨by simp, rfl⟩

/-- The session after its prover was stopped. -/
def stopped (w : World ω) : Session ω β :=
  { s with world := w, phase := .uninitialized, scopes := [] }

theorem exists_stop :
    ∃ w, P.Moves (fun _ _ _ => False) s.world w ∧ (stop P).run s = ((), { s with world := w }) := by
  rcases s with ⟨w, phase, globals, scopes, degraded, counts⟩
  cases phase with
  | uninitialized => exact ⟨w, .refl w, rfl⟩
  | started backend | failed backend =>
    cases backend with
    | prover b => exact ⟨_, (Prover.Step.terminate b w).moves, rfl⟩
    | nobody => exact ⟨w, .refl w, rfl⟩

theorem exists_terminate :
    ∃ w, P.Moves (fun _ _ _ => False) s.world w ∧ (terminate P).run s = ((), s.stopped w) := by
  rcases exists_stop P s with ⟨w, hmoves, hstop⟩
  refine ⟨w, hmoves, ?_⟩
  unfold terminate
  rw [StateT.run_bind, hstop]
  rfl

/-- The session whose prover was stopped to be replaced. -/
def replaced (w : World ω) : Session ω β :=
  { s.stopped w with counts := { s.counts with restarts := s.counts.restarts + 1 } }

theorem exists_restart :
    ∃ w, P.Moves (fun _ _ _ => False) s.world w ∧
      (restart P).run s = (launch P).run (s.replaced w) := by
  rcases exists_stop P s with ⟨w, hmoves, hstop⟩
  refine ⟨w, hmoves, ?_⟩
  unfold restart
  rw [StateT.run_bind, hstop]
  rfl

end Operations

section Worlds

-- Whatever an operation does to the world, it does by calls to the prover.
variable {P : Prover ω β} {Q : World ω → β → Term → Prop} {s : Session ω β}

theorem world_record (t : Term) (s : Session ω β) : (s.record t).world = s.world := by
  unfold record
  split <;> rfl

theorem moves_assume (t : Term) : P.Moves Q s.world ((assume P t).run.run s).2.world := by
  have hcall : ∀ {b r b' w'}, s.phase = .started (.prover b) →
      Yields (P.assume t) b s.world r b' w' → P.Moves Q s.world w' :=
    fun _ h => (Prover.Step.assume h).moves
  rcases assume_cases P s t with ⟨e, _, hrun⟩ | ⟨s', hasked, hrun⟩ | ⟨e, s', hasked, hrun⟩
  · rw [hrun]
    exact .refl _
  · rw [hrun, world_record]
    exact hasked.moves hcall
  · rw [hrun]
    exact hasked.moves hcall

theorem moves_isValid {t : Term} (h : ∀ b, s.phase = .started (.prover b) → Q s.world b t) :
    P.Moves Q s.world ((isValid P t).run.run s).2.world := by
  rcases isValid_cases P s t with ⟨e, _, hrun⟩ | ⟨r, s', hasked, hrun⟩
  · rw [hrun]
    exact .refl _
  · rw [hrun]
    exact hasked.moves fun hphase hyields => (Prover.Step.isValid (h _ hphase) hyields).moves

theorem moves_retractAll (ts : List Term) :
    P.Moves Q s.world ((retractAll P ts).run.run s).2.world := by
  rcases retractAll_cases P s ts with ⟨_, hrun⟩ | ⟨r, s', hasked, hrun⟩
  · rw [hrun]
    exact .refl _
  · rw [hrun]
    refine hasked.moves fun _ => Prover.moves_forM fun _ => ?_
    exact fun hcall => (Prover.Step.retract hcall).moves

theorem moves_pop : P.Moves Q s.world ((pop P).run.run s).2.world := by
  rcases pop_cases P s with ⟨_, hrun⟩ | ⟨scope, scopes, _, hrun⟩
  · rw [hrun]
    exact .refl _
  · rw [hrun]
    exact moves_retractAll (s := s.popped scopes) scope

theorem moves_clearGlobals : P.Moves Q s.world ((clearGlobals P).run.run s).2.world := by
  rcases clearGlobals_cases P s with ⟨_, hrun⟩ | ⟨_, hrun⟩
  · rw [hrun]
    exact .refl _
  · rw [hrun]
    exact moves_retractAll (s := { s with globals := [] }) s.globals

theorem moves_of_quiet {w w' : World ω} (h : P.Moves (fun _ _ _ => False) w w') : P.Moves Q w w' :=
  h.mono fun _ _ _ hfalse => hfalse.elim

theorem moves_launch : P.Moves Q s.world ((launch P).run s).2.world := by
  -- Only the description of the start counts, not the start itself.
  have hlaunched := launched P s
  generalize ((launch P).run s).2 = s' at hlaunched ⊢
  cases hlaunched with
  | told hstart htell => exact (Prover.Step.start hstart).moves.trans (Prover.moves_tell htell)
  | alone hmoves => exact moves_of_quiet hmoves

theorem moves_start : P.Moves Q s.world ((start P).run s).2.world := by
  rcases start_cases P s with ⟨_, hrun⟩ | ⟨_, hrun⟩
  · rw [hrun]
    exact .refl _
  · rw [hrun]
    exact moves_launch

theorem moves_restart : P.Moves Q s.world ((restart P).run s).2.world := by
  rcases exists_restart P s with ⟨w, hmoves, hrun⟩
  rw [hrun]
  exact (moves_of_quiet hmoves).trans (moves_launch (s := s.replaced w))

theorem moves_terminate : P.Moves Q s.world ((terminate P).run s).2.world := by
  rcases exists_terminate P s with ⟨w, hmoves, hrun⟩
  rw [hrun]
  exact moves_of_quiet hmoves

end Worlds

end Session

end Vouch
