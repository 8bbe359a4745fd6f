import Vouch.Proofs.Prover.Log
import Vouch.Prover.Scripted

/-!
# The Books of a Session

A session retracts by its books, so these had better be right. Each operation keeps them
right if it succeeds. If it fails, then either the session fails with it, and there is
nothing to keep up, or the prover is in an unknown condition.

## Main definitions

* `Session.Mirrors`: The prover holds the global axioms and, after them, what was
  assumed in the open scopes.
* `SessionStep.StartsAfresh`: A start is harmless.

## Theorems

* `SessionStep.sound_run`: Then each step keeps the books right.
* `SessionStep.heldAfter_of_mem_seen`: The log says what the books say.
-/

namespace Vouch

open List ProverM ProverCall Prover

variable {ω τ β α : Type}

namespace Session

/-- What the prover holds according to the books. -/
def assumptions (s : Session ω β) : List Term :=
  s.globals ++ s.scopes.reverse.flatten

/-- If the session has a prover, then the prover holds the terms. -/
def Holds (H : ω → β → List Term → Prop) (ts : List Term) (s : Session ω β) : Prop :=
  ∀ b, s.phase = .started (.prover b) → H s.world.outside b ts

/-- The prover holds what the books say, and as long as there was none nothing was
    opened. -/
structure Mirrors (H : ω → β → List Term → Prop) (s : Session ω β) : Prop where
  held : Holds H s.assumptions s
  unopened : s.phase = .uninitialized → s.scopes = []

section Books

variable (s : Session ω β)

@[simp] theorem assumptions_record (t : Term) :
    (s.record t).assumptions = s.assumptions ++ [t] := by
  rcases s with ⟨w, phase, globals, scopes, degraded, counts⟩
  cases scopes <;> simp [record, assumptions]

@[simp] theorem assumptions_pushed : s.pushed.assumptions = s.assumptions := by
  simp [pushed, assumptions]

theorem assumptions_of_scopes {scope : List Term} {scopes : List (List Term)}
    (h : s.scopes = scope :: scopes) :
    s.assumptions = (s.popped scopes).assumptions ++ scope := by
  simp [popped, assumptions, h]

theorem assumptions_of_flatten (h : s.scopes.flatten = []) : s.assumptions = s.globals := by
  have hreverse : s.scopes.reverse.flatten = [] := by
    rw [flatten_eq_nil_iff] at h ⊢
    exact fun scope hmem => h scope (mem_reverse.mp hmem)
  rw [assumptions, hreverse, append_nil]

theorem SameBooks.assumptions {s s' : Session ω β} (h : SameBooks s s') :
    s'.assumptions = s.assumptions := by
  rw [Session.assumptions, Session.assumptions, h.globals, h.scopes]

theorem phase_record (t : Term) : (s.record t).phase = s.phase := by
  unfold record
  split <;> rfl

end Books

section Operations

variable {P : Prover ω β} {H : ω → β → List Term → Prop} {s s' : Session ω β} {ts us : List Term}

variable {e : ProverError} {q : ProverM ω β α}

theorem holds_afterError {b : β} {w : World ω} (h : e.isFatal = false → ∀ us, H w.outside b us) :
    Holds H ts ((s.now b w).afterError e) := by
  intro b' hb'
  unfold afterError at hb' ⊢
  cases he : e.isFatal with
  | true =>
    rw [he] at hb'
    cases hb'
  | false =>
    rw [he] at hb'
    cases hb'
    exact h he ts

theorem Asked.holds {d a : α} (h : Asked d q s (.ok a) s') (hs : Holds H ts s)
    (hq : ∀ {b a b' w}, H s.world.outside b ts → Yields q b s.world (.ok a) b' w →
      H w.outside b' us) : Holds H us s' := by
  cases h with
  | nobody hphase =>
    intro b hb
    rw [hphase] at hb
    cases hb
  | answered hphase hyields =>
    intro b hb
    cases hb
    exact hq (hs _ hphase) hyields

theorem Asked.holds_of_error {d : α} (h : Asked d q s (.error e) s')
    (hq : ∀ {b b' w}, Yields q b s.world (.error e) b' w → e.isFatal = false →
      ∀ us, H w.outside b' us) : Holds H us s' := by
  cases h with
  | failed hphase hyields => exact holds_afterError (hq hyields)

theorem Asked.phase_ne {d : α} {r : Except ProverError α} (h : Asked d q s r s') :
    s'.phase ≠ .uninitialized := by
  cases h with
  | nobody hphase => simp [hphase]
  | answered => simp [now]
  | failed =>
    unfold afterError fail now
    split <;> simp

theorem mirrors_pushed (h : ∃ backend, s.phase = .started backend) (hs : Mirrors H s) :
    Mirrors H s.pushed := by
  rcases h with ⟨backend, hphase⟩
  refine ⟨?_, fun hnone => by cases hphase.symm.trans hnone⟩
  rw [assumptions_pushed]
  exact hs.held

variable (hP : P.Tracks H)
include hP

theorem mirrors_assume {t : Term} (hs : Mirrors H s)
    (hr : P.Excuses H ∨ ∃ a, ((assume P t).run.run s).1 = .ok a) :
    Mirrors H ((assume P t).run.run s).2 := by
  rcases assume_cases P s t with ⟨e, _, hrun⟩ | ⟨s', hasked, hrun⟩ | ⟨e, s', hasked, hrun⟩
  · rw [hrun]
    exact hs
  · rw [hrun]
    -- The term is added to what is held and recorded at the same place.
    have hheld : Holds H (s.assumptions ++ [t]) s' := hasked.holds hs.held hP.assume
    refine ⟨fun b hb => ?_,
      fun hnone => absurd ((phase_record s' t).symm.trans hnone) hasked.phase_ne⟩
    rw [phase_record] at hb
    rw [assumptions_record, hasked.sameBooks.assumptions, world_record]
    exact hheld b hb
  · rw [hrun] at hr ⊢
    rcases hr with hE | ⟨a, ha⟩
    · exact ⟨hasked.holds_of_error hE.assume, fun hnone => absurd hnone hasked.phase_ne⟩
    · cases ha

theorem mirrors_isValid {t : Term} (hs : Mirrors H s)
    (hr : P.Excuses H ∨ ∃ a, ((isValid P t).run.run s).1 = .ok a) :
    Mirrors H ((isValid P t).run.run s).2 := by
  rcases isValid_cases P s t with ⟨e, _, hrun⟩ | ⟨r, s', hasked, hrun⟩
  · rw [hrun]
    exact hs
  · rw [hrun] at hr ⊢
    refine ⟨?_, fun hnone => absurd hnone hasked.phase_ne⟩
    cases r with
    | ok v =>
      rw [hasked.sameBooks.assumptions]
      exact hasked.holds hs.held hP.isValid
    | error e =>
      rcases hr with hE | ⟨a, ha⟩
      · exact hasked.holds_of_error hE.isValid
      · cases ha

theorem mirrors_retractAll (hs : Holds H (s.assumptions ++ ts) s)
    (hunopened : s.phase = .uninitialized → s.scopes = [])
    (hr : P.Excuses H ∨ ∃ a, ((retractAll P ts).run.run s).1 = .ok a) :
    Mirrors H ((retractAll P ts).run.run s).2 := by
  rcases retractAll_cases P s ts with ⟨hrefused, hrun⟩ | ⟨r, s', hasked, hrun⟩
  · rw [hrun]
    exact ⟨fun b hb => absurd hb (hrefused (.prover b)), hunopened⟩
  · rw [hrun] at hr ⊢
    refine ⟨?_, fun hnone => absurd hnone hasked.phase_ne⟩
    cases r with
    | ok u =>
      rw [hasked.sameBooks.assumptions]
      exact hasked.holds hs fun hheld hyields => hP.retracts hheld rfl hyields
    | error e =>
      rcases hr with hE | ⟨a, ha⟩
      · exact hasked.holds_of_error hE.retracts
      · cases ha

theorem mirrors_pop (hs : Mirrors H s)
    (hr : P.Excuses H ∨ ∃ a, ((pop P).run.run s).1 = .ok a) :
    Mirrors H ((pop P).run.run s).2 := by
  rcases pop_cases P s with ⟨_, hrun⟩ | ⟨scope, scopes, hscopes, hrun⟩
  · rw [hrun]
    exact hs
  · rw [hrun] at hr ⊢
    -- The terms of the innermost scope are the latest that are held.
    have hheld := hs.held
    rw [assumptions_of_scopes s hscopes] at hheld
    refine mirrors_retractAll hP (s := s.popped scopes) hheld (fun hnone => ?_) hr
    cases hscopes.symm.trans (hs.unopened hnone)

theorem mirrors_clearGlobals (hs : Mirrors H s)
    (hr : P.Excuses H ∨ ∃ a, ((clearGlobals P).run.run s).1 = .ok a) :
    Mirrors H ((clearGlobals P).run.run s).2 := by
  rcases clearGlobals_cases P s with ⟨_, hrun⟩ | ⟨hscopes, hrun⟩
  · rw [hrun]
    exact hs
  · rw [hrun] at hr ⊢
    have hheld := hs.held
    -- Without scopes the global axioms are all that is held.
    have hbooks : s.assumptions =
        ({ s with globals := [] } : Session ω β).assumptions ++ s.globals := by
      simp [assumptions, hscopes]
    rw [hbooks] at hheld
    exact mirrors_retractAll hP (s := { s with globals := [] }) hheld (fun _ => hscopes) hr

theorem mirrors_launch (h : s.scopes.flatten = []) : Mirrors H ((launch P).run s).2 := by
  have hlaunched := launched P s
  generalize ((launch P).run s).2 = s' at hlaunched ⊢
  cases hlaunched with
  | told hstart htell =>
    refine ⟨fun b hb => ?_, fun hnone => by cases hnone⟩
    cases hb
    change H _ _ s.assumptions
    rw [assumptions_of_flatten s h]
    exact hP.tell (hP.start hstart) htell
  | alone => exact ⟨fun _ hb => (by cases hb), fun hnone => (by cases hnone)⟩

theorem mirrors_start (hs : Mirrors H s) (h : s.phase.isFailed → s.scopes.flatten = []) :
    Mirrors H ((start P).run s).2 := by
  rcases start_cases P s with ⟨_, hrun⟩ | ⟨hrefused, hrun⟩
  · rw [hrun]
    exact hs
  · rw [hrun]
    refine mirrors_launch hP ?_
    -- Nothing was opened yet, or by assumption nothing is left.
    cases hphase : s.phase with
    | uninitialized => rw [hs.unopened hphase, flatten_nil]
    | started backend => exact absurd hphase (hrefused backend)
    | failed backend => exact h (by rw [hphase]; rfl)

theorem mirrors_restart : Mirrors H ((restart P).run s).2 := by
  rcases exists_restart P s with ⟨w, _, hrun⟩
  rw [hrun]
  exact mirrors_launch hP (s := s.replaced w) rfl

omit hP in
theorem mirrors_terminate : Mirrors H ((terminate P).run s).2 := by
  rcases exists_terminate P s with ⟨w, _, hrun⟩
  rw [hrun]
  exact ⟨fun _ hb => (by cases hb), fun _ => rfl⟩

end Operations

end Session

namespace SessionStep

open Session

/-- Look at nothing. -/
def idle : Watch ω β :=
  fun _ => return

/-- Write the session down beside the outside. -/
def noting : Watch (ω × List (Session ω β)) β := fun _ => modify fun s =>
  { s with world := { s.world with outside := (s.world.outside.1, s.world.outside.2 ++ [s.plain]) } }

/-- The sessions after each of the steps, inner ones included. -/
def seen (P : Prover ω β) (w : World ω) (steps : List SessionStep) : List (Session ω β) :=
  ((runAll (P.beside _) noting steps).run.run { world := w.blank }).2.world.outside.2

mutual

/-- If the step starts a session that failed, then nothing was assumed in the
    scopes that are open. -/
def StartsAfresh (P : Prover ω β) : SessionStep → Session ω β → Prop
  | start, s => s.phase.isFailed → s.scopes.flatten = []
  | withScope steps, s => ∀ s', Session.push.run.run s = (.ok (), s') → AllStartAfresh P steps s'
  | attempt step, s => StartsAfresh P step s
  | _, _ => True

/-- The same for all steps up to the first that fails. -/
def AllStartAfresh (P : Prover ω β) : List SessionStep → Session ω β → Prop
  | [], _ => True
  | step :: steps, s => StartsAfresh P step s ∧
      ∀ s', (run P idle step).run.run s = (.ok (), s') → AllStartAfresh P steps s'

end

/-- Only the session after a success has to be looked at. -/
def decidableAfter {Q : Session ω β → Prop} : (r : Except ProverError Unit × Session ω β) →
    Decidable (Q r.2) → Decidable (∀ s', r = (.ok (), s') → Q s')
  | (.error _, _), _ => isTrue fun _ h => by cases h
  | (.ok (), s'), hQ => decidable_of_iff (Q s')
      ⟨fun hs _ heq => by cases heq; exact hs, fun h => h s' rfl⟩

mutual

def decidableStartsAfresh (P : Prover ω β) : (step : SessionStep) → (s : Session ω β) →
    Decidable (StartsAfresh P step s)
  | start, s =>
    have : Decidable (s.scopes.flatten = []) := decidable_of_iff _ List.isEmpty_iff
    inferInstanceAs (Decidable (s.phase.isFailed → s.scopes.flatten = []))
  | withScope steps, _ => decidableAfter _ (decidableAllStartAfresh P steps _)
  | attempt step, s => decidableStartsAfresh P step s
  | push, _ | pop, _ | assume _, _ | isValid _, _ | clearGlobals, _ | restart, _ | terminate, _
  | describe, _ => isTrue trivial

def decidableAllStartAfresh (P : Prover ω β) : (steps : List SessionStep) → (s : Session ω β) →
    Decidable (AllStartAfresh P steps s)
  | [], _ => isTrue trivial
  | step :: steps, s =>
    have := decidableStartsAfresh P step s
    have := decidableAfter ((run P idle step).run.run s) (decidableAllStartAfresh P steps _)
    inferInstanceAs (Decidable (_ ∧ _))

end

instance (P : Prover ω β) (steps : List SessionStep) (s : Session ω β) :
    Decidable (AllStartAfresh P steps s) :=
  decidableAllStartAfresh P steps s

/-- The books are right, and were so whenever they were looked at. -/
structure Sound (H : ω → β → List Term → Prop) (s : Session (ω × List (Session ω β)) β) : Prop where
  mirrors : s.Mirrors fun outside => H outside.1
  notes : ∀ note ∈ s.world.outside.2, note.Mirrors H

theorem beside_of_moves {P : Prover ω β} {Q : World (ω × τ) → β → Term → Prop}
    {w w' : World (ω × τ)} (h : (P.beside τ).Moves Q w w') : w'.outside.2 = w.outside.2 := by
  refine h.keeps (K := fun v => v.outside.2 = w.outside.2) (fun v v' hstep hv => ?_) rfl
  refine Eq.trans ?_ hv
  cases hstep with
  | start h => exact congrArg (fun done => done.2.outside.2) h.symm
  | assume h | retract h | isValid _ h => exact congrArg (fun done => done.2.outside.2) h.symm
  | terminate b => rfl

variable {s s' : Session ω β}

theorem run_watched {watch : Watch ω β} {m : SessionM ω β Result} {r : Except ProverError Result}
    (h : m.run.run s = (r, s')) :
    (watched watch m).run.run s = (r.map fun _ => (), ((watch r).run s').2) := by
  have hrun : (watched watch m).run.run s =
      (discard (liftExcept (m.run.run s).1) : SessionM ω β Unit).run.run
        ((watch (m.run.run s).1).run (m.run.run s).2).2 := rfl
  rw [hrun, h]
  cases r <;> rfl

theorem run_bind_pure {m : SessionM ω β α} {f : α → Result} {r : Except ProverError α}
    (h : m.run.run s = (r, s')) : (m >>= fun a => pure (f a)).run.run s = (r.map f, s') := by
  rw [ExceptT.run_bind, StateT.run_bind, h]
  cases r <;> rfl

theorem erases_idle {ω' : Type} {g : ω' → ω} (r : Except ProverError Result) :
    Erases (Session.via g (β := β)) (idle r) (idle r) :=
  fun _ => rfl

theorem erases_noting (r : Except ProverError Result) :
    Erases Session.plain (noting (ω := ω) (β := β) r) (idle r) :=
  fun _ => rfl

section Runs

variable {P : Prover ω β} {H : ω → β → List Term → Prop} {s s' : Session (ω × List (Session ω β)) β}

theorem Sound.of_moves (h : Sound H s) (hmirrors : s'.Mirrors fun outside => H outside.1)
    (hmoves : (P.beside _).Moves (fun _ _ _ => True) s.world s'.world) : Sound H s' := by
  refine ⟨hmirrors, ?_⟩
  rw [beside_of_moves hmoves]
  exact h.notes

theorem Sound.noting (h : Sound H s) (r : Except ProverError Result) :
    Sound H ((noting r).run s).2 := by
  refine ⟨⟨h.mirrors.held, h.mirrors.unopened⟩, fun note hmem => ?_⟩
  rcases mem_append.mp hmem with hmem | hmem
  · exact h.notes note hmem
  · rw [mem_singleton.mp hmem]
    exact ⟨h.mirrors.held, h.mirrors.unopened⟩

theorem Sound.of_run_watched {m : SessionM (ω × List (Session ω β)) β Result}
    (h : Sound H (m.run.run s).2) :
    Sound H ((SessionStep.watched SessionStep.noting m).run.run s).2 := by
  rcases hm : m.run.run s with ⟨r, s'⟩
  rw [hm] at h
  rw [run_watched hm]
  exact h.noting r

theorem Sound.watched {m : SessionM (ω × List (Session ω β)) β α} {f : α → Result}
    (h : Sound H (m.run.run s).2) :
    Sound H ((SessionStep.watched SessionStep.noting (m >>= fun a => pure (f a))).run.run s).2 := by
  rcases hm : m.run.run s with ⟨r, s'⟩
  refine Sound.of_run_watched ?_
  rw [run_bind_pure hm]
  rw [hm] at h
  exact h

theorem Sound.pop (hP : P.Tracks H) (hE : P.Excuses H) (h : Sound H s) :
    Sound H ((Session.pop (P.beside _)).run.run s).2 := by
  have hmirrors := mirrors_pop ((covers_beside P).tracks hP) h.mirrors
    (.inl ((covers_beside P).excuses hE))
  exact h.of_moves hmirrors moves_pop

theorem Sound.popMany (hP : P.Tracks H) (hE : P.Excuses H) (n : Nat) :
    ∀ {s : Session (ω × List (Session ω β)) β} (closed : Except ProverError Unit), Sound H s →
      Sound H ((Session.popMany (P.beside _) n closed).run s).2 := by
  induction n with
  | zero => exact fun _ h => h
  | succ n ih =>
    intro s closed h
    rcases exists_popMany_succ (P.beside _) s n closed with ⟨closed', hrun⟩
    rw [hrun]
    exact ih closed' (h.pop hP hE)

theorem Sound.push (h : Sound H s) : Sound H (Session.push.run.run s).2 := by
  rcases push_cases s with ⟨e, _, hrun⟩ | ⟨hphase, hrun⟩
  · rw [hrun]
    exact h
  · rw [hrun]
    exact ⟨mirrors_pushed hphase h.mirrors, h.notes⟩

theorem Sound.withScope (hP : P.Tracks H) (hE : P.Excuses H)
    {body : SessionM (ω × List (Session ω β)) β α} (h : Sound H s)
    (hbody : ∀ s', Session.push.run.run s = (.ok (), s') → Sound H s' →
      Sound H (body.run.run s').2) : Sound H ((Session.withScope (P.beside _) body).run.run s).2 := by
  rcases withScope_cases (P.beside _) s body with ⟨e, _, hrun⟩ |
    ⟨r, s₁, closed, s₂, hphase, hinner, hclose, hrun⟩
  · rw [hrun]
    exact h
  · rcases push_cases s with ⟨e, hrefused, _⟩ | ⟨_, hpush⟩
    · rcases hphase with ⟨backend, hphase⟩
      exact absurd hphase (hrefused backend)
    · have hopen := h.push
      rw [hpush] at hopen
      have hend := (hbody _ hpush hopen).popMany hP hE (s₁.depth - s.depth) (.ok ())
      rw [hinner, hclose] at hend
      rw [hrun]
      exact hend

mutual

theorem sound_run (hP : P.Tracks H) (hE : P.Excuses H) :
    ∀ (step : SessionStep) {s : Session (ω × List (Session ω β)) β},
      StartsAfresh P step s.plain → Sound H s → Sound H ((run (P.beside _) noting step).run.run s).2
  | start, _, hafresh, h => Sound.watched (f := fun _ => .done) (m := ExceptT.lift _) <|
      h.of_moves (mirrors_start ((covers_beside P).tracks hP) h.mirrors hafresh) moves_start
  | push, _, _, h => h.push.watched
  | pop, _, _, h => (h.pop hP hE).watched
  | assume t, _, _, h => Sound.watched <| h.of_moves
      (mirrors_assume ((covers_beside P).tracks hP) h.mirrors
        (.inl ((covers_beside P).excuses hE))) (moves_assume t)
  | isValid t, _, _, h => Sound.watched <| h.of_moves
      (mirrors_isValid ((covers_beside P).tracks hP) h.mirrors
        (.inl ((covers_beside P).excuses hE))) (moves_isValid fun _ _ => trivial)
  | clearGlobals, _, _, h => Sound.watched <| h.of_moves
      (mirrors_clearGlobals ((covers_beside P).tracks hP) h.mirrors
        (.inl ((covers_beside P).excuses hE))) moves_clearGlobals
  | restart, _, _, h => Sound.watched (f := fun _ => .done) (m := ExceptT.lift _) <|
      h.of_moves (mirrors_restart ((covers_beside P).tracks hP)) moves_restart
  | terminate, _, _, h => Sound.watched (f := fun _ => .done) (m := ExceptT.lift _) <|
      h.of_moves mirrors_terminate moves_terminate
  | describe, _, _, h => by
    rw [run]
    refine Sound.of_run_watched ?_
    exact h
  | withScope steps, s, hafresh, h => by
    refine Sound.of_run_watched (h.withScope hP hE fun s' hpush hopen => ?_)
    have hplain := erases_push (g := Prod.fst) s
    rw [hpush] at hplain
    have hinner := sound_runAll hP hE steps (hafresh _ hplain) hopen
    rcases hrun : (runAll (P.beside _) noting steps).run.run s' with ⟨r, s₁⟩
    rw [hrun] at hinner
    rw [run_bind_pure hrun]
    exact hinner
  | attempt step, s, hafresh, h => by
    rw [run]
    exact sound_run hP hE step hafresh h

theorem sound_runAll (hP : P.Tracks H) (hE : P.Excuses H) :
    ∀ (steps : List SessionStep) {s : Session (ω × List (Session ω β)) β},
      AllStartAfresh P steps s.plain → Sound H s →
        Sound H ((runAll (P.beside _) noting steps).run.run s).2
  | [], _, _, h => h
  | step :: steps, s, hafresh, h => by
    have hfirst := sound_run hP hE step hafresh.1 h
    have hplain := erases_run (covers_beside P) erases_noting step s
    have hrun : (runAll (P.beside _) noting (step :: steps)).run =
        (run (P.beside _) noting step >>= fun _ => runAll (P.beside _) noting steps).run := rfl
    rw [hrun, ExceptT.run_bind, StateT.run_bind]
    rcases hstep : (run (P.beside _) noting step).run.run s with ⟨r, s₁⟩
    rw [hstep] at hfirst hplain
    -- After a step that failed the others are not done.
    cases r with
    | ok u => exact sound_runAll hP hE steps (hafresh.2 _ hplain) hfirst
    | error e => exact hfirst

end

end Runs

section Views

variable {ω' : Type} {g : ω' → ω} {q : Prover ω' β} {p : Prover ω β}

theorem map_via_seen (hc : q.Covers g p) (w : World ω') (steps : List SessionStep) :
    (seen q w steps).map (Session.via g) = seen p (w.via g) steps := by
  have hnoting : ∀ r, Erases (Session.via fun outside : ω' × List (Session ω' β) =>
      (g outside.1, outside.2.map (Session.via g))) (noting r) (noting (ω := ω) r) := by
    refine fun r => erases_modify fun s => ?_
    simp [Session.via, World.via]
  have hrun := erases_runAll (hc.beside (List.map (Session.via g))) hnoting steps
    { world := w.blank }
  have hnotes := congrArg (fun done => done.2.world.outside.2) hrun
  exact hnotes.symm

mutual

theorem StartsAfresh.of_covers (hc : q.Covers g p) :
    ∀ (step : SessionStep) {s : Session ω' β}, StartsAfresh p step (s.via g) → StartsAfresh q step s
  | start, _, h => h
  | push, _, h => h
  | pop, _, h => h
  | assume _, _, h => h
  | isValid _, _, h => h
  | clearGlobals, _, h => h
  | restart, _, h => h
  | terminate, _, h => h
  | describe, _, h => h
  | withScope steps, s, h => by
    intro s' hpush
    have hvia := erases_push (g := g) s
    rw [hpush] at hvia
    exact AllStartAfresh.of_covers hc steps (h _ hvia)
  | attempt step, _, h => StartsAfresh.of_covers hc step h

theorem AllStartAfresh.of_covers (hc : q.Covers g p) :
    ∀ (steps : List SessionStep) {s : Session ω' β},
      AllStartAfresh p steps (s.via g) → AllStartAfresh q steps s
  | [], _, _ => trivial
  | step :: steps, s, h => by
    refine ⟨StartsAfresh.of_covers hc step h.1, fun s' hrun => ?_⟩
    have hvia := erases_run hc (fun r => erases_idle r) step s
    rw [hrun] at hvia
    exact AllStartAfresh.of_covers hc steps (h.2 _ hvia)

end

end Views

/-- **The books of a session are right.** Whatever is done with a session, and whatever
    its prover does, after each step and inside of scopes, too: if the session is
    in use and no call failed in a way that it survived, then the prover holds the
    global axioms followed by the terms of the open scopes, the outermost first.
    Starting a session that failed is only allowed when nothing is left in its
    scopes. The log is kept beside the outside and changes nothing. -/
theorem heldAfter_of_mem_seen (p : Prover ω β) (w : World ω) (steps : List SessionStep)
    (hsteps : AllStartAfresh p steps { world := w }) :
    (seen p.observed w.blank steps).map Session.plain = seen p w steps ∧
    ∀ s ∈ seen p.observed w.blank steps, ∀ b, s.phase = .started (.prover b) →
      NoSlips s.world.outside.2 →
      heldAfter s.world.outside.2 = some (s.globals ++ s.scopes.reverse.flatten) := by
  refine ⟨map_via_seen p.covers_observed w.blank steps, fun s hmem b hphase hslips => ?_⟩
  have hafresh : AllStartAfresh p.observed steps { world := w.blank } :=
    .of_covers p.covers_observed steps hsteps
  have hsound := sound_runAll p.tracks_observed_of_noSlips p.excuses_observed steps
    (s := { world := w.blank.blank }) hafresh
    ⟨⟨fun _ hb => (by cases hb), fun _ => rfl⟩, by simp [World.blank]⟩
  exact (hsound.notes s hmem).held b hphase hslips

/-- The prover ends with its first query. -/
def crashing : World Script :=
  { outside := { queries := [.fails (.exited (some 1))] } }

/-- A formula that is a variable. -/
def letter (name : String) (index : Nat) : Term :=
  .node ⟨0, index⟩ { op := .var, sort := .formula, payload := some (.name name) } [] []

/-- Up to the end of the prover, with a global axiom and another in a scope. -/
def untilCrash : List SessionStep :=
  [.start, .assume (letter "g" 0), .push, .assume (letter "a" 1), .attempt (.isValid (letter "a" 1))]

/-- The scope is closed before the session is started again, and opened anew. -/
def recovery : List SessionStep :=
  untilCrash ++ [.pop, .start, .withScope [.assume (letter "a" 1), .isValid (letter "a" 1)]]

theorem allStartAfresh_recovery :
    AllStartAfresh (Prover.scripted false) recovery { world := crashing } := by
  decide +kernel

theorem heldAfter_of_mem_seen_recovery :
    AllStartAfresh (Prover.scripted false) recovery { world := crashing } ∧
    ((seen (Prover.scripted false).observed crashing.blank recovery).map fun s =>
      (s.phase.isFailed, s.assumptions.length)) =
        [(false, 0), (false, 1), (false, 1), (false, 2), (true, 2), (true, 1), (false, 1),
          (false, 2), (false, 2), (false, 1)] ∧
    ∀ s ∈ seen (Prover.scripted false).observed crashing.blank recovery, ∀ b,
      s.phase = .started (.prover b) → NoSlips s.world.outside.2 →
      heldAfter s.world.outside.2 = some (s.globals ++ s.scopes.reverse.flatten) :=
  ⟨allStartAfresh_recovery, by decide +kernel,
    (heldAfter_of_mem_seen (Prover.scripted false) crashing recovery allStartAfresh_recovery).2⟩

-- If the scope stays open, then the new prover is told to retract the global axiom.
example : ((seen (Prover.scripted false).observed crashing.blank
    (untilCrash ++ [.start, .pop])).getLast?.map fun s =>
      ((heldAfter s.world.outside.2).map List.length, s.assumptions.length)) = some (some 0, 1) := by
  decide +kernel

end SessionStep

end Vouch
