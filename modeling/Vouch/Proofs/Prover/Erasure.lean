import Vouch.Proofs.Prover.Operations
import Vouch.Prover.Steps

/-!
# Provers that Are Watched

To say what happened during a run, something has to write it down, and the only place
that outlives a prover is the outside. So a prover is given room beside its outside. A
session never looks at the outside, so whatever is kept there makes no difference.

## Main definitions

* `Erases`: A computation does what another does, seen through a map.
* `Prover.Covers`: A prover does what another does, seen through a map of the outside.

## Theorems

* `Prover.covers_beside`: Room beside the outside makes no difference.
* `Prover.Covers.tracks`: What is known of a prover is known of one that covers it.
* `SessionStep.erases_runAll`: Runs that are watched come to the same, step by step.
-/

namespace Vouch

open ProverM

variable {ω ω' τ τ' β α γ σ σ' : Type}

/-- A computation that looks at the state first goes on with the state it has. -/
theorem run_getThe_bind {ε : Type} {m : Type → Type} [Monad m] [LawfulMonad m]
    (k : σ → ExceptT ε (StateT σ m) α) (s : σ) : (getThe σ >>= k).run.run s = (k s).run.run s := by
  have hget : (getThe σ : ExceptT ε (StateT σ m) σ).run.run s = pure (.ok s, s) := by
    change (do let p ← pure (s, s); pure (.ok p.1, p.2) : m (Except ε σ × σ)) = _
    rw [pure_bind]
  rw [ExceptT.run_bind, StateT.run_bind, hget, pure_bind]

/-- The first computation does what the second does, and what it does besides
    cannot be seen through `f`. -/
def Erases (f : σ → σ') (m : StateM σ α) (m' : StateM σ' α) : Prop :=
  ∀ s, m'.run (f s) = ((m.run s).1, f (m.run s).2)

section Rules

variable {ε : Type} {f : σ → σ'} {m : StateM σ α} {m' : StateM σ' α}

theorem erases_pure (f : σ → σ') (a : α) : Erases f (pure a) (pure a) :=
  fun _ => rfl

theorem Erases.bind {k : α → StateM σ γ} {k' : α → StateM σ' γ} (hm : Erases f m m')
    (hk : ∀ a, Erases f (k a) (k' a)) : Erases f (m >>= k) (m' >>= k') := by
  intro s
  rw [StateT.run_bind, hm s, StateT.run_bind]
  exact hk (m.run s).1 (m.run s).2

theorem erases_get_bind {k : σ → StateM σ γ} {k' : σ' → StateM σ' γ}
    (hk : ∀ s, (k' (f s)).run (f s) = (((k s).run s).1, f ((k s).run s).2)) :
    Erases f (get >>= k) (get >>= k') :=
  hk

theorem erases_modify {g : σ → σ} {g' : σ' → σ'} (h : ∀ s, g' (f s) = f (g s)) :
    Erases f (modify g) (modify g') := by
  intro s
  change ((), g' (f s)) = ((), f (g s))
  rw [h s]

theorem erases_bind_except {m : ExceptT ε (StateM σ) α} {m' : ExceptT ε (StateM σ') α}
    {k : α → ExceptT ε (StateM σ) γ} {k' : α → ExceptT ε (StateM σ') γ}
    (hm : Erases f m.run m'.run) (hk : ∀ a, Erases f (k a).run (k' a).run) :
    Erases f (m >>= k).run (m' >>= k').run := by
  rw [ExceptT.run_bind, ExceptT.run_bind]
  refine hm.bind fun r => ?_
  cases r with
  | ok a => exact hk a
  | error e => exact erases_pure f _

theorem erases_lift (hm : Erases f m m') :
    Erases f (ExceptT.lift m : ExceptT ε (StateM σ) α).run (ExceptT.lift m').run := by
  intro s
  change (Except.ok (m'.run (f s)).1, (m'.run (f s)).2) = (Except.ok (m.run s).1, f (m.run s).2)
  rw [hm s]

theorem erases_liftExcept (f : σ → σ') (r : Except ε α) :
    Erases f (liftExcept r : ExceptT ε (StateM σ) α).run
      (liftExcept r : ExceptT ε (StateM σ') α).run := by
  cases r <;> exact fun _ => rfl

theorem erases_forM {k : α → ExceptT ε (StateM σ) Unit} {k' : α → ExceptT ε (StateM σ') Unit}
    (hk : ∀ a, Erases f (k a).run (k' a).run) :
    ∀ as : List α, Erases f (as.forM k).run (as.forM k').run
  | [] => erases_pure f _
  | a :: as => erases_bind_except (hk a) fun _ => erases_forM hk as

end Rules

/-- The world seen through `g`. -/
def World.via (g : ω' → ω) (w : World ω') : World ω :=
  { supply := w.supply, outside := g w.outside }

/-- The world without what is beside its outside. -/
abbrev World.plain (w : World (ω × τ)) : World ω :=
  w.via Prod.fst

/-- The session seen through `g`. -/
def Session.via (g : ω' → ω) (s : Session ω' β) : Session ω β :=
  { world := s.world.via g, phase := s.phase, globals := s.globals, scopes := s.scopes,
    degraded := s.degraded, counts := s.counts }

/-- The session without what is beside its outside. -/
abbrev Session.plain (s : Session (ω × τ) β) : Session ω β :=
  s.via Prod.fst

/-- The world with a blank page beside its outside. -/
def World.blank (w : World ω) : World (ω × List τ) :=
  { supply := w.supply, outside := (w.outside, []) }

variable {g : ω' → ω}

theorem erases_beside {m : StateM (World ω') α} {m' : StateM (World ω) α}
    (h : Erases (World.via g) m m') (k : τ' → τ) :
    Erases (World.via fun outside => (g outside.1, k outside.2)) (World.beside m)
      (World.beside m') := by
  intro w
  have hrun : (World.beside (τ := τ) m').run (w.via fun outside => (g outside.1, k outside.2)) =
      (fun done : α × World ω =>
        (done.1, { supply := done.2.supply, outside := (done.2.outside, k w.outside.2) }))
      (m'.run (w.plain.via g)) := rfl
  rw [hrun, h w.plain]
  rfl

/-- Computations with a prover in any state. -/
def ProverM.Erases (g : ω' → ω) (m : ProverM ω' β α) (m' : ProverM ω β α) : Prop :=
  ∀ b, Vouch.Erases (World.via g) (m.run.run b) (m'.run.run b)

variable {m : ProverM ω' β α} {m' : ProverM ω β α}

theorem ProverM.Erases.yields (h : Erases g m m') {b b' : β} {w w' : World ω'}
    {r : Except ProverError α} (hm : Yields m b w r b' w') :
    Yields m' b (w.via g) r b' (w'.via g) := by
  unfold Yields at hm ⊢
  rw [h b w, hm]

theorem ProverM.Erases.bind {k : α → ProverM ω' β γ} {k' : α → ProverM ω β γ} (hm : Erases g m m')
    (hk : ∀ a, Erases g (k a) (k' a)) : Erases g (m >>= k) (m' >>= k') := by
  intro b w
  rcases exists_yields m b w with ⟨r, b₁, w₁, h⟩
  -- Both computations have the same outcome, so both go on or neither does.
  have h' := hm.yields h
  cases r with
  | ok a =>
    rw [run_bind_of_ok h, run_bind_of_ok h']
    exact hk a b₁ w₁
  | error e => rw [run_bind_of_error h, run_bind_of_error h']

theorem ProverM.erases_forM {k : α → ProverM ω' β Unit} {k' : α → ProverM ω β Unit}
    (hk : ∀ a, ProverM.Erases g (k a) (k' a)) :
    ∀ as : List α, ProverM.Erases g (as.forM k) (as.forM k')
  | [] => fun _ _ => rfl
  | a :: as => (hk a).bind fun _ => ProverM.erases_forM hk as

namespace Prover

/-- The first prover does what the second does, and more besides. -/
structure Covers (q : Prover ω' β) (g : ω' → ω) (p : Prover ω β) : Prop where
  start : Vouch.Erases (World.via g) q.start p.start
  assume : ∀ t, ProverM.Erases g (q.assume t) (p.assume t)
  retract : ProverM.Erases g q.retract p.retract
  isValid : ∀ t, ProverM.Erases g (q.isValid t) (p.isValid t)
  terminate : ∀ b, Vouch.Erases (World.via g) (q.terminate b) (p.terminate b)
  isStub : ∀ b, q.isStub b = p.isStub b

theorem covers_beside (p : Prover ω β) : (p.beside τ).Covers Prod.fst p where
  start _ := rfl
  assume _ _ _ := rfl
  retract _ _ := rfl
  isValid _ _ _ := rfl
  terminate _ _ := rfl
  isStub _ := rfl

theorem Covers.beside {q : Prover ω' β} {p : Prover ω β} (hc : q.Covers g p) (k : τ' → τ) :
    (q.beside τ').Covers (fun outside => (g outside.1, k outside.2)) (p.beside τ) where
  start := erases_beside hc.start k
  assume t b := erases_beside (hc.assume t b) k
  retract b := erases_beside (hc.retract b) k
  isValid t b := erases_beside (hc.isValid t b) k
  terminate b := erases_beside (hc.terminate b) k
  isStub := hc.isStub

section Covering

variable {q : Prover ω' β} {p : Prover ω β} (hc : q.Covers g p)
include hc

variable {H : ω → β → List Term → Prop}

theorem Covers.tracks (hp : p.Tracks H) : q.Tracks fun outside => H (g outside) where
  start h := hp.start (by rw [hc.start, h])
  assume hheld h := hp.assume hheld ((hc.assume _).yields h)
  retract hheld h := hp.retract hheld (hc.retract.yields h)
  isValid hheld h := hp.isValid hheld ((hc.isValid _).yields h)

theorem Covers.excuses (hp : p.Excuses H) : q.Excuses fun outside => H (g outside) where
  assume h := hp.assume ((hc.assume _).yields h)
  retract h := hp.retract (hc.retract.yields h)
  isValid h := hp.isValid ((hc.isValid _).yields h)

theorem Covers.genuine {b : β} (h : q.Genuine b) : p.Genuine b := by
  induction h with
  | launched h => exact .launched ((hc.isStub _).symm.trans h)
  | assume _ h ih => exact ih.assume ((hc.assume _).yields h)
  | retract _ h ih => exact ih.retract (hc.retract.yields h)
  | isValid _ h ih => exact ih.isValid ((hc.isValid _).yields h)

end Covering

end Prover

namespace Session

theorem erases_inWorld {m : StateM (World ω') α} {m' : StateM (World ω) α}
    (hm : Erases (World.via g) m m') : Erases (via g (β := β)) (inWorld m) (inWorld m') := by
  intro s
  change ((m'.run (s.world.via g)).1, { s.via g with world := (m'.run (s.world.via g)).2 }) = _
  rw [hm s.world]
  rfl

theorem erases_track (r : Except ProverError α) :
    Erases (via g (β := β)) (track r).run (track r).run := by
  intro s
  cases r with
  | ok a => rfl
  | error e =>
    -- Whether the session fails depends on the failure and on the phase only.
    rw [run_track_error, run_track_error]
    unfold afterError
    split
    · rcases s with ⟨w, phase, globals, scopes, degraded, counts⟩
      cases phase <;> rfl
    · rfl

theorem erases_modifyThe {k : Session ω' β → Session ω' β}
    {k' : Session ω β → Session ω β} (h : ∀ s, k' (s.via g) = (k s).via g) :
    Erases (via g) (modifyThe (Session ω' β) k : SessionM ω' β Unit).run
      (modifyThe (Session ω β) k' : SessionM ω β Unit).run := by
  intro s
  change (Except.ok (), k' (s.via g)) = (Except.ok (), (k s).via g)
  rw [h s]

theorem erases_getThe_bind {k : Session ω' β → SessionM ω' β α}
    {k' : Session ω β → SessionM ω β α}
    (hk : ∀ s, (k' (s.via g)).run.run (s.via g) =
      (((k s).run.run s).1, ((k s).run.run s).2.via g)) :
    Erases (via g) (getThe (Session ω' β) >>= k).run (getThe (Session ω β) >>= k').run :=
  hk

theorem erases_ask (d : α) {q : ProverM ω' β α} {q' : ProverM ω β α}
    (hq : ProverM.Erases g q q') (backend : Backend β) :
    Erases (via g) (ask d q backend).run (ask d q' backend).run := by
  cases backend with
  | nobody => exact erases_pure (via g) _
  | prover b =>
    refine erases_bind_except (erases_lift (erases_inWorld (hq b))) fun r => ?_
    exact erases_bind_except (erases_modifyThe fun _ => rfl) fun _ => erases_track r.1

theorem erases_live : Erases (via g (β := β)) live.run live.run := by
  intro s
  rcases s with ⟨w, phase, globals, scopes, degraded, counts⟩
  cases phase <;> rfl

section Operations

variable {q : Prover ω' β} {p : Prover ω β} (hc : q.Covers g p)
include hc

theorem erases_launch : Erases (via g) (launch q) (launch p) := by
  unfold launch
  refine (erases_inWorld hc.start).bind fun r => ?_
  cases r with
  | error e => exact erases_modify fun _ => rfl
  | ok b =>
    -- The global axioms are read from the books, and those are the same.
    refine erases_get_bind fun s => ?_
    have htell : ProverM.Erases g (tell q s.globals) (tell p s.globals) :=
      ProverM.erases_forM hc.assume s.globals
    refine (erases_inWorld (htell b)).bind (fun r => ?_) s
    rcases r with ⟨r, b'⟩
    cases r with
    | ok u =>
      refine erases_modify fun s => ?_
      rw [hc.isStub]
      rfl
    | error e => exact (erases_inWorld (hc.terminate b')).bind fun _ => erases_modify fun _ => rfl

theorem erases_start : Erases (via g) (start q) (start p) := by
  intro s
  rcases s with ⟨w, phase, globals, scopes, degraded, counts⟩
  cases phase with
  | started backend => rfl
  | uninitialized | failed backend => exact erases_launch hc _

omit hc in
theorem erases_push : Erases (via g (β := β)) push.run push.run :=
  erases_bind_except erases_live fun _ => erases_modifyThe fun _ => rfl

theorem erases_retractAll (ts : List Term) :
    Erases (via g) (retractAll q ts).run (retractAll p ts).run := by
  intro s
  rcases s with ⟨w, phase, globals, scopes, degraded, counts⟩
  cases phase with
  | started backend => exact erases_ask () (ProverM.erases_forM (fun _ => hc.retract) ts) backend _
  | uninitialized | failed backend => rfl

theorem erases_pop : Erases (via g) (pop q).run (pop p).run := by
  refine erases_getThe_bind fun s => ?_
  rcases s with ⟨w, phase, globals, scopes, degraded, counts⟩
  cases scopes with
  | nil => rfl
  | cons scope scopes =>
    exact erases_retractAll hc scope (popped ⟨w, phase, globals, [], degraded, counts⟩ scopes)

omit hc in
theorem via_record (t : Term) (s : Session ω' β) : (s.via g).record t = (s.record t).via g := by
  rcases s with ⟨w, phase, globals, scopes, degraded, counts⟩
  cases scopes <;> rfl

theorem erases_assume (t : Term) : Erases (via g) (assume q t).run (assume p t).run := by
  refine erases_bind_except erases_live fun backend => ?_
  refine erases_bind_except (erases_ask () (hc.assume t) backend) fun _ => ?_
  exact erases_modifyThe (via_record t)

theorem erases_isValid (t : Term) : Erases (via g) (isValid q t).run (isValid p t).run := by
  refine erases_bind_except erases_live fun backend => ?_
  exact erases_ask true (hc.isValid t) backend

theorem erases_popMany : ∀ (n : Nat) (closed : Except ProverError Unit),
    Erases (via g) (popMany q n closed) (popMany p n closed)
  | 0, closed => erases_pure (via g) closed
  | n + 1, closed => (erases_pop hc).bind fun r => by
    cases r with
    | ok u => exact erases_popMany n closed
    | error e => exact erases_popMany n (.error e)

theorem erases_withScope {body : SessionM ω' β α} {body' : SessionM ω β α}
    (hbody : Erases (via g) body.run body'.run) :
    Erases (via g) (withScope q body).run (withScope p body').run := by
  refine erases_getThe_bind fun s => ?_
  refine erases_bind_except erases_push (fun _ => ?_) s
  refine erases_bind_except (erases_lift hbody) fun r => ?_
  -- As many scopes are closed as were opened, and that is in the books, too.
  refine erases_getThe_bind fun s₁ => ?_
  refine erases_bind_except (erases_lift (erases_popMany hc _ (.ok ()))) (fun closed => ?_) s₁
  refine erases_bind_except (erases_liftExcept (via g) r) fun a => ?_
  exact erases_bind_except (erases_liftExcept (via g) closed) fun _ => erases_pure (via g) _

theorem erases_clearGlobals : Erases (via g) (clearGlobals q).run (clearGlobals p).run := by
  refine erases_getThe_bind fun s => ?_
  rcases s with ⟨w, phase, globals, scopes, degraded, counts⟩
  cases scopes with
  | nil => exact erases_retractAll hc globals ⟨w, phase, [], [], degraded, counts⟩
  | cons scope scopes => rfl

theorem erases_stop : Erases (via g) (stop q) (stop p) := by
  intro s
  rcases s with ⟨w, phase, globals, scopes, degraded, counts⟩
  -- Whether the session failed or not, its prover is stopped in the same way.
  have hb : ∀ b : Backend β, Erases (World.via g) (b.terminate q) (b.terminate p) := by
    intro b
    cases b with
    | prover b => exact hc.terminate b
    | nobody => exact erases_pure _ _
  cases phase with
  | uninitialized => rfl
  | started backend | failed backend => exact erases_inWorld (hb backend) _

theorem erases_restart : Erases (via g) (restart q) (restart p) := by
  refine (erases_stop hc).bind fun _ => Erases.bind (erases_modify ?_) fun _ => erases_launch hc
  exact fun _ => rfl

theorem erases_terminate : Erases (via g) (terminate q) (terminate p) := by
  refine (erases_stop hc).bind fun _ => erases_modify ?_
  exact fun _ => rfl

end Operations

end Session

namespace SessionStep

variable {q : Prover ω' β} {p : Prover ω β} {watch : Watch ω' β} {watch' : Watch ω β}

theorem erases_watched {m : SessionM ω' β Result} {m' : SessionM ω β Result}
    (hw : ∀ r, Erases (Session.via g) (watch r) (watch' r))
    (hm : Erases (Session.via g) m.run m'.run) :
    Erases (Session.via g) (watched watch m).run (watched watch' m').run := by
  refine erases_bind_except (erases_lift hm) fun r => ?_
  refine erases_bind_except (erases_lift (hw r)) fun _ => ?_
  cases r <;> exact fun _ => rfl

theorem erases_sure {m : StateM (Session ω' β) Unit} {m' : StateM (Session ω β) Unit}
    (hm : Erases (Session.via g) m m') : Erases (Session.via g) (sure m).run (sure m').run :=
  erases_bind_except (erases_lift hm) fun _ => erases_pure _ _

open Session in
mutual

theorem erases_run (hc : q.Covers g p) (hw : ∀ r, Erases (via g) (watch r) (watch' r)) :
    ∀ step : SessionStep, Erases (via g) (run q watch step).run (run p watch' step).run
  | start => erases_watched hw (erases_sure (erases_start hc))
  | push => erases_watched hw (erases_bind_except erases_push fun _ => erases_pure _ _)
  | pop => erases_watched hw (erases_bind_except (erases_pop hc) fun _ => erases_pure _ _)
  | assume t =>
    erases_watched hw (erases_bind_except (erases_assume hc t) fun _ => erases_pure _ _)
  | isValid t =>
    erases_watched hw (erases_bind_except (erases_isValid hc t) fun _ => erases_pure _ _)
  | clearGlobals =>
    erases_watched hw (erases_bind_except (erases_clearGlobals hc) fun _ => erases_pure _ _)
  | restart => erases_watched hw (erases_sure (erases_restart hc))
  | terminate => erases_watched hw (erases_sure (erases_terminate hc))
  | describe => erases_watched hw (erases_getThe_bind fun _ => rfl)
  | withScope steps => erases_watched hw (erases_withScope hc
      (erases_bind_except (erases_runAll hc hw steps) fun _ => erases_pure _ _))
  | attempt step =>
    erases_bind_except (erases_lift (erases_run hc hw step)) fun _ => erases_pure _ _

/-- A session never looks at the outside, so neither does a run. -/
theorem erases_runAll (hc : q.Covers g p) (hw : ∀ r, Erases (via g) (watch r) (watch' r)) :
    ∀ steps : List SessionStep, Erases (via g) (runAll q watch steps).run (runAll p watch' steps).run
  | [] => erases_pure _ _
  | step :: steps => erases_bind_except (erases_run hc hw step) fun _ => erases_runAll hc hw steps

end

end SessionStep

end Vouch
