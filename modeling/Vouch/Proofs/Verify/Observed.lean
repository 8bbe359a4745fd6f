import Mathlib.Data.List.Forall2
import Vouch.Proofs.Prover.Log
import Vouch.Verify.Workers

/-!
# Verifiers and Workers that Are Watched

A verifier holds its prover, which is another one when it is watched, so the two runs
are in states that correspond rather than in states of which one is a part of the other.

## Main definitions

* `Simulates`: From states that correspond, two computations come to the same.
* `Verifier.Sees`: Verifiers with the one prover and with the other correspond.

## Theorems

* `Prover.verifyProgram_via`: What is written down makes no difference.
-/

namespace Vouch

open List

variable {ω ω' β α γ σ σ' : Type}

/-- From states that correspond, the computations come to the same and end in
    states that correspond. -/
def Simulates (R : σ → σ' → Prop) (m : StateM σ α) (m' : StateM σ' α) : Prop :=
  ∀ s s', R s s' → (m'.run s').1 = (m.run s).1 ∧ R (m.run s).2 (m'.run s').2

section Rules

variable {ε : Type} {R : σ → σ' → Prop}

theorem simulates_pure (a : α) : Simulates R (pure a) (pure a) :=
  fun _ _ h => ⟨rfl, h⟩

theorem Simulates.bind {m : StateM σ α} {m' : StateM σ' α} {k : α → StateM σ γ}
    {k' : α → StateM σ' γ} (hm : Simulates R m m') (hk : ∀ a, Simulates R (k a) (k' a)) :
    Simulates R (m >>= k) (m' >>= k') := by
  intro s s' h
  rcases hm s s' h with ⟨hresult, hstate⟩
  rw [StateT.run_bind, StateT.run_bind]
  have hrest := hk (m.run s).1 (m.run s).2 (m'.run s').2 hstate
  change ((k' (m'.run s').1).run (m'.run s').2).1 = ((k (m.run s).1).run (m.run s).2).1 ∧
    R ((k (m.run s).1).run (m.run s).2).2 ((k' (m'.run s').1).run (m'.run s').2).2
  rw [hresult]
  exact hrest

variable {k : α → ExceptT ε (StateM σ) γ} {k' : α → ExceptT ε (StateM σ') γ}

theorem simulates_bind_except {m : ExceptT ε (StateM σ) α} {m' : ExceptT ε (StateM σ') α}
    (hm : Simulates R m.run m'.run) (hk : ∀ a, Simulates R (k a).run (k' a).run) :
    Simulates R (m >>= k).run (m' >>= k').run := by
  rw [ExceptT.run_bind, ExceptT.run_bind]
  refine hm.bind fun r => ?_
  cases r with
  | ok a => exact hk a
  | error e => exact simulates_pure _

theorem simulates_liftExcept (r : Except ε α) :
    Simulates R (liftExcept r : ExceptT ε (StateM σ) α).run
      (liftExcept r : ExceptT ε (StateM σ') α).run := by
  cases r <;> exact fun _ _ h => ⟨rfl, h⟩

theorem simulates_getThe_bind {k : σ → ExceptT ε (StateM σ) γ} {k' : σ' → ExceptT ε (StateM σ') γ}
    (hk : ∀ s s', R s s' → (((k' s').run.run s').1 = ((k s).run.run s).1 ∧
      R ((k s).run.run s).2 ((k' s').run.run s').2)) :
    Simulates R (getThe σ >>= k).run (getThe σ' >>= k').run :=
  hk

theorem simulates_mapM (hk : ∀ a, Simulates R (k a).run (k' a).run) :
    ∀ as : List α, Simulates R (as.mapM k).run (as.mapM k').run := by
  intro as
  induction as with
  | nil =>
    rw [mapM_nil, mapM_nil]
    exact simulates_pure _
  | cons a as ih =>
    rw [mapM_cons, mapM_cons]
    refine simulates_bind_except (hk a) fun c => simulates_bind_except ih fun cs => ?_
    exact simulates_pure _

end Rules

namespace Verifier

open Session

/-- A verifier with the one prover and a verifier with the other. -/
structure Sees (g : ω' → ω) (q : Prover ω' β) (p : Prover ω β) (v : Verifier ω' β)
    (v' : Verifier ω β) : Prop where
  watched : v.prover = q
  prover : v'.prover = p
  style : v'.style = v.style
  scope : v'.scope = v.scope
  session : v'.session = v.session.via g

variable {g : ω' → ω} {q : Prover ω' β} {p : Prover ω β}

section Sessions

variable (hc : q.Covers g p)
include hc

theorem erases_revive : Erases (Session.via g) (revive q) (revive p) := by
  refine erases_get_bind fun s => ?_
  by_cases h : s.phase.isFailed = true
  · have hvia : (s.via g).phase.isFailed = true := h
    simp only [h, hvia, if_true]
    exact erases_restart hc s
  · have hvia : ¬(s.via g).phase.isFailed = true := h
    simp only [h, hvia]
    rfl

theorem erases_setGlobals (ts : List Term) :
    Erases (Session.via g) (setGlobals q ts) (setGlobals p ts) := by
  have hforget : Erases (Session.via g)
      (do let _ ← (Session.clearGlobals q).run; Session.restart q)
      (do let _ ← (Session.clearGlobals p).run; Session.restart p) :=
    (erases_clearGlobals hc).bind fun _ => erases_restart hc
  refine (erases_revive hc).bind fun _ => (erases_clearGlobals hc).bind fun r => ?_
  -- The old axioms were retracted, or a new prover never heard of them.
  cases r with
  | ok u =>
    refine (erases_forM (erases_assume hc) ts).bind fun r => ?_
    cases r with
    | ok u => exact erases_pure _ _
    | error e => exact hforget
  | error e =>
    refine (erases_restart hc).bind fun _ => (erases_forM (erases_assume hc) ts).bind fun r => ?_
    cases r with
    | ok u => exact erases_pure _ _
    | error e => exact hforget

theorem erases_query (vc : Term) : Erases (Session.via g) (query q vc).run (query p vc).run :=
  erases_bind_except (erases_forM (erases_assume hc) _) fun _ => erases_isValid hc vc

theorem erases_check (vc : Term) : Erases (Session.via g) (check q vc) (check p vc) := by
  refine (erases_revive hc).bind fun _ => ?_
  refine (erases_withScope hc (erases_query hc vc)).bind fun r => ?_
  cases r with
  | ok valid => exact erases_pure _ _
  | error e => exact (erases_restart hc).bind fun _ => erases_pure _ _

end Sessions

theorem simulates_inSession {m : StateM (Session ω' β) α} {m' : StateM (Session ω β) α}
    (hm : Erases (Session.via g) m m') :
    Simulates (Sees g q p) (inSession m).run (inSession m').run := by
  intro v v' h
  have hrun := hm v.session
  rw [← h.session] at hrun
  refine ⟨?_, ⟨h.watched, h.prover, h.style, h.scope, ?_⟩⟩
  · exact congrArg (fun done => Except.ok done.1) hrun
  · exact congrArg Prod.snd hrun

theorem erases_build (m : Fresh α) :
    Erases (Session.via g (β := β)) (inWorld (World.build m)) (inWorld (World.build m)) :=
  fun _ => rfl

theorem simulates_build (m : Fresh (Except VerifyError α)) :
    Simulates (Sees g q p) (build m).run (build m).run :=
  simulates_bind_except (simulates_inSession (erases_build m)) fun r => simulates_liftExcept r

section Verifiers

variable (hc : q.Covers g p)
include hc

theorem simulates_install (prog : Program) :
    Simulates (Sees g q p) (install prog).run (install prog).run := by
  refine simulates_bind_except (simulates_build _) fun terms => ?_
  refine simulates_bind_except ?_ fun _ => simulates_getThe_bind fun v v' h => ?_
  · exact fun v v' h => ⟨rfl, ⟨h.watched, h.prover, h.style, rfl, h.session⟩⟩
  · rw [h.watched, h.prover]
    exact simulates_inSession (erases_setGlobals hc terms) v v' h

theorem simulates_process (prog : Program) :
    Simulates (Sees g q p) (process prog).run (process prog).run := by
  refine simulates_bind_except (simulates_liftExcept _) fun _ => ?_
  exact simulates_bind_except (simulates_install hc prog) fun _ => simulates_pure _

theorem simulates_verify (r : Routine) : Simulates (Sees g q p) (verify r).run (verify r).run := by
  refine simulates_getThe_bind fun v v' h => ?_
  -- The condition is built from what both verifiers have in common.
  rw [h.style, h.scope]
  refine simulates_bind_except (simulates_build _) (fun vc => ?_) v v' h
  rw [h.watched, h.prover]
  exact simulates_bind_except (simulates_inSession (erases_check hc vc)) fun _ => simulates_pure _

theorem simulates_report (r : Routine) : Simulates (Sees g q p) (report r).run (report r).run :=
  simulates_bind_except (simulates_verify hc r) fun _ => simulates_pure _

theorem simulates_run (prog : Program) :
    Simulates (Sees g q p) (Verifier.run prog).run (Verifier.run prog).run := by
  refine simulates_bind_except (simulates_process hc prog) fun prepared => ?_
  refine simulates_bind_except (simulates_mapM (simulates_report hc) _) fun routines => ?_
  refine simulates_getThe_bind fun v v' h => ⟨?_, h⟩
  rw [h.session]
  rfl

theorem sees_init (style : ConditionStyle) (w : World ω') :
    Sees g q p (init q style w) (init p style (w.via g)) := by
  refine ⟨rfl, rfl, rfl, rfl, ?_⟩
  exact congrArg Prod.snd (erases_start hc { world := w })

theorem sees_terminate {v : Verifier ω' β} {v' : Verifier ω β} (h : Sees g q p v v') :
    Sees g q p v.terminate v'.terminate := by
  refine ⟨h.watched, h.prover, h.style, h.scope, ?_⟩
  have hrun := congrArg Prod.snd (erases_terminate hc v.session)
  rw [← h.session, ← h.prover, ← h.watched] at hrun
  exact hrun

end Verifiers

end Verifier

namespace Workers

open Verifier

variable {g : ω' → ω} {q : Prover ω' β} {p : Prover ω β}

/-- What is remembered of a worker with the one prover and with the other. -/
inductive Hired (g : ω' → ω) (q : Prover ω' β) (p : Prover ω β) :
    Nat × Except VerifyError (Verifier ω' β) → Nat × Except VerifyError (Verifier ω β) → Prop
  | ok (id : Nat) {v : Verifier ω' β} {v' : Verifier ω β} :
      Verifier.Sees g q p v v' → Hired g q p (id, .ok v) (id, .ok v')
  | error (id : Nat) (e : VerifyError) : Hired g q p (id, .error e) (id, .error e)

/-- Workers with the one prover and workers with the other. -/
structure Sees (g : ω' → ω) (q : Prover ω' β) (p : Prover ω β) (w : Workers ω' β)
    (w' : Workers ω β) : Prop where
  outside : w'.outside = g w.outside
  staff : Forall₂ (Hired g q p) w.staff w'.staff

theorem lookup_cases {staff : List (Nat × Except VerifyError (Verifier ω' β))}
    {staff' : List (Nat × Except VerifyError (Verifier ω β))}
    (h : Forall₂ (Hired g q p) staff staff') (id : Nat) :
    (staff.lookup id = none ∧ staff'.lookup id = none) ∨
    (∃ v v', Verifier.Sees g q p v v' ∧ staff.lookup id = some (.ok v) ∧
      staff'.lookup id = some (.ok v')) ∨
    ∃ e, staff.lookup id = some (.error e) ∧ staff'.lookup id = some (.error e) := by
  induction h with
  | nil => exact .inl ⟨rfl, rfl⟩
  | @cons a b as bs hab _ ih =>
    cases hab with
    | @ok i v v' hv =>
      by_cases hid : id = i
      · subst hid
        exact .inr (.inl ⟨v, v', hv, lookup_cons_self, lookup_cons_self⟩)
      · simpa [lookup_cons, beq_false_of_ne hid] using ih
    | error i e =>
      by_cases hid : id = i
      · subst hid
        exact .inr (.inr ⟨e, lookup_cons_self, lookup_cons_self⟩)
      · simpa [lookup_cons, beq_false_of_ne hid] using ih

variable {v : Verifier ω' β} {v' : Verifier ω β} {w : Workers ω' β} {w' : Workers ω β}

theorem Sees.keep (h : Sees g q p w w') (id : Nat) (hv : Verifier.Sees g q p v v')
    {state : Except VerifyError (Verifier ω' β)} {state' : Except VerifyError (Verifier ω β)}
    (hstate : Hired g q p (id, state) (id, state')) :
    Sees g q p (w.keep id v state) (w'.keep id v' state') := by
  refine ⟨?_, Forall₂.cons hstate ?_⟩
  · have hworld := congrArg (fun s => s.world.outside) hv.session
    exact hworld
  · refine rel_filter (fun a b hab => ?_) h.staff
    cases hab <;> rfl

theorem sees_moveTo (h : Verifier.Sees g q p v v') (outside : ω') :
    Verifier.Sees g q p (v.moveTo outside) (v'.moveTo (g outside)) := by
  refine ⟨h.watched, h.prover, h.style, h.scope, ?_⟩
  have hsession := h.session
  rcases v' with ⟨prover, style, scope, session⟩
  cases hsession
  rfl

theorem hire_cases (hc : q.Covers g p) (style : ConditionStyle) (prog : Program) (id : Nat)
    (h : Sees g q p w w') :
    (∃ e w₁ w₁', (hire q style prog id).run.run w = (.error e, w₁) ∧
      (hire p style prog id).run.run w' = (.error e, w₁') ∧ Sees g q p w₁ w₁') ∨
    ∃ v v' w₁ w₁', (hire q style prog id).run.run w = (.ok v, w₁) ∧
      (hire p style prog id).run.run w' = (.ok v', w₁') ∧ Verifier.Sees g q p v v' ∧
      Sees g q p w₁ w₁' := by
  unfold hire
  rw [run_getThe_bind, run_getThe_bind]
  rcases lookup_cases h.staff id with ⟨hnone, hnone'⟩ | ⟨v, v', hv, hsome, hsome'⟩ |
    ⟨e, hsome, hsome'⟩
  · -- A worker that is not known yet starts where the others have left the outside.
    have hinstall := simulates_install hc prog _ _ (sees_init hc style { outside := w.outside })
    have hworld : ({ outside := w.outside } : World ω').via g = { outside := w'.outside } := by
      rw [h.outside]
      rfl
    rw [hworld] at hinstall
    rcases hq : (install prog).run.run (init q style { outside := w.outside }) with ⟨r, v⟩
    rcases hp : (install prog).run.run (init p style { outside := w'.outside }) with ⟨r', v'⟩
    rw [hq, hp] at hinstall
    rcases hinstall with ⟨rfl, hv⟩
    simp only [hnone, hnone']
    -- Whether the program could be installed is remembered in any case.
    cases r' with
    | ok u => exact .inr ⟨v, v', _, _, rfl, rfl, hv, h.keep id hv (.ok id hv)⟩
    | error e => exact .inl ⟨_, _, _, rfl, rfl, h.keep id hv (.error id e)⟩
  · simp only [hsome, hsome', h.outside]
    exact .inr ⟨_, _, w, w', rfl, rfl, sees_moveTo hv w.outside, h⟩
  · simp only [hsome, hsome']
    exact .inl ⟨_, w, w', rfl, rfl, h⟩

theorem run_check_of_hired {style : ConditionStyle} {prog : Program} {id : Nat} {r : Routine}
    {w w₁ : Workers ω β} {v v₁ : Verifier ω β} {outcome : Except VerifyError RoutineReport}
    (hhire : (hire p style prog id).run.run w = (.ok v, w₁))
    (hreport : (report r).run.run v = (outcome, v₁)) :
    (check p style prog id r).run.run w =
      (outcome.map fun report => (report, v₁.session.degraded), w₁.keep id v₁ (.ok v₁)) := by
  unfold check
  rw [ExceptT.run_bind, StateT.run_bind, hhire]
  change (do
    modifyThe (Workers ω β) fun w => w.keep id ((report r).run.run v).2 (.ok ((report r).run.run v).2)
    let report ← liftExcept ((report r).run.run v).1
    return (report, ((Verifier.report r).run.run v).2.session.degraded) : WorkersM ω β _).run.run w₁ = _
  rw [hreport]
  cases outcome <;> rfl

theorem simulates_check (hc : q.Covers g p) (style : ConditionStyle) (prog : Program) (id : Nat)
    (r : Routine) :
    Simulates (Sees g q p) (check q style prog id r).run (check p style prog id r).run := by
  intro w w' h
  rcases hire_cases hc style prog id h with ⟨e, w₁, w₁', hq, hp, hw⟩ |
    ⟨v, v', w₁, w₁', hq, hp, hv, hw⟩
  · unfold check
    rw [ExceptT.run_bind, ExceptT.run_bind, StateT.run_bind, StateT.run_bind, hq, hp]
    exact ⟨rfl, hw⟩
  · have hreport := simulates_report hc r v v' hv
    rcases hrun : (report r).run.run v with ⟨outcome, v₁⟩
    rcases hrun' : (report r).run.run v' with ⟨outcome', v₁'⟩
    rw [hrun, hrun'] at hreport
    rcases hreport with ⟨rfl, hv₁⟩
    rw [run_check_of_hired hq hrun, run_check_of_hired hp hrun', hv₁.session]
    exact ⟨rfl, hw.keep id hv₁ (.ok id hv₁)⟩

end Workers

namespace Prover

open Verifier

/-- The reports of the workers on given routines. -/
def sharedWork (p : Prover ω β) (style : ConditionStyle) (assign : Nat → Nat) (prog : Program)
    (routines : List Routine) : WorkersM ω β (List (RoutineReport × Bool)) :=
  routines.zipIdx.mapM fun task => Workers.check p style prog (assign task.2) task.1

/-- What the workers reported, as one report. -/
def sharedReport (reports : List (RoutineReport × Bool)) : Report :=
  { routines := reports.map (·.1), degraded := reports.any (·.2) }

theorem verifyShared_cases (assign : Nat → Nat) (prog : Program) :
    (∃ e, ∀ {ω β : Type} (p : Prover ω β) (style : ConditionStyle) (outside : ω),
      (p.verifyShared style assign prog).run outside = (.error e, outside)) ∨
    ∃ prepared, prog.prepare = .ok prepared ∧
      ∀ {ω β : Type} (p : Prover ω β) (style : ConditionStyle) (outside : ω),
      (p.verifyShared style assign prog).run outside =
        (((p.sharedWork style assign prog prepared.routines).run.run { outside }).1.map sharedReport,
          ((p.sharedWork style assign prog prepared.routines).run.run { outside }).2.outside) := by
  cases hprepare : prog.prepare with
  | error e =>
    refine .inl ⟨e, fun p style outside => ?_⟩
    change p.verifyShared style assign prog outside = _
    unfold verifyShared
    rw [hprepare]
    rfl
  | ok prepared =>
    cases hterms : (prog.axiomTerms.run {}).1 with
    | error e =>
      refine .inl ⟨e, fun p style outside => ?_⟩
      change p.verifyShared style assign prog outside = _
      unfold verifyShared
      rw [hprepare, hterms]
      rfl
    | ok terms =>
      refine .inr ⟨prepared, rfl, fun p style outside => ?_⟩
      change p.verifyShared style assign prog outside = _
      unfold verifyShared
      rw [hprepare, hterms]
      rfl

variable {g : ω' → ω} {q : Prover ω' β} {p : Prover ω β} (hc : q.Covers g p)
include hc

theorem verifyAlone_via (style : ConditionStyle) (prog : Program) (outside : ω') :
    (p.verifyAlone style prog).run (g outside) =
      (((q.verifyAlone style prog).run outside).1, g ((q.verifyAlone style prog).run outside).2) := by
  have hrun := simulates_run hc prog _ _ (sees_init hc style { outside })
  have hend := congrArg (fun s => s.world.outside) (sees_terminate hc hrun.2).session
  -- What is done is to start, to run and to stop, with the outside passed on.
  have hpair : (p.verifyAlone style prog).run (g outside) =
      (((Verifier.run prog).run.run (init p style (({ outside } : World ω').via g))).1,
        ((Verifier.run prog).run.run
          (init p style (({ outside } : World ω').via g))).2.terminate.session.world.outside) := rfl
  rw [hpair, hrun.1, hend]
  rfl

theorem verifyShared_via (style : ConditionStyle) (assign : Nat → Nat) (prog : Program)
    (outside : ω') :
    (p.verifyShared style assign prog).run (g outside) =
      (((q.verifyShared style assign prog).run outside).1,
        g ((q.verifyShared style assign prog).run outside).2) := by
  rcases verifyShared_cases assign prog with ⟨e, hfault⟩ | ⟨prepared, _, hshared⟩
  · rw [hfault, hfault]
  · have hwork : Simulates (Workers.Sees g q p) (q.sharedWork style assign prog prepared.routines).run
        (p.sharedWork style assign prog prepared.routines).run := by
      refine simulates_mapM (fun task => ?_) _
      exact Workers.simulates_check hc style prog (assign task.2) task.1
    rcases hwork { outside } { outside := g outside } ⟨rfl, .nil⟩ with ⟨hreports, hend⟩
    rw [hshared, hshared, hreports, hend.outside]

/-- Neither one verifier nor several workers look at what is written down. -/
theorem verifyProgram_via (style : ConditionStyle) (jobs : Nat) (assign : Nat → Nat)
    (prog : Program) (outside : ω') :
    (p.verifyProgram style jobs assign prog).run (g outside) =
      (((q.verifyProgram style jobs assign prog).run outside).1,
        g ((q.verifyProgram style jobs assign prog).run outside).2) := by
  unfold verifyProgram
  by_cases hjobs : jobs ≤ 1
  · simp only [hjobs, if_true]
    exact verifyAlone_via hc style prog outside
  · simp only [hjobs, if_false]
    exact verifyShared_via hc style assign prog outside

end Prover

end Vouch
