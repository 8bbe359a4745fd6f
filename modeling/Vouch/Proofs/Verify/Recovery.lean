import Vouch.Proofs.Prover.Mirror
import Vouch.Proofs.Verify.Observed

/-!
# Recovery of a Verifier

A verifier goes on after failures of its prover, and none of them may leave a trace: an
assumption that is left over, or one that is lost, would change the verdicts on all
later routines.

## Main definitions

* `Session.Balanced`: As many scopes were closed as were opened.
* `Session.AtRest`: No scope is open, and the books are right.
* `VerifierStep`: What can be done with a verifier.

## Theorems

* `Verifier.install_cases`: What can come of installing a program.
* `Verifier.verify_cases`: What can come of checking a routine.
* `VerifierStep.recovered_history`: After each call a verifier has recovered.
-/

namespace Vouch

open List ProverM ProverCall

variable {ω β α γ : Type}

namespace Session

/-- No scope is open, and as many were closed as were opened. -/
structure Balanced (s : Session ω β) : Prop where
  scopes : s.scopes = []
  counts : s.counts.pushes = s.counts.pops

/-- No scope is open, the session did not fail, and its books are right. -/
structure AtRest (H : ω → β → List Term → Prop) (s : Session ω β) : Prop extends Balanced s where
  usable : s.phase.isFailed = false
  mirrors : s.Mirrors H

/-- What assumptions and queries leave as it is: the number of scopes, how often
    they were opened and closed, whether the session is degraded and, within a
    scope, the global axioms. -/
structure Alike (s s' : Session ω β) : Prop where
  depth : s'.scopes.length = s.scopes.length
  counts : s'.counts = s.counts
  degraded : s'.degraded = s.degraded
  globals : s.scopes ≠ [] → s'.globals = s.globals

theorem Alike.refl (s : Session ω β) : Alike s s :=
  ⟨rfl, rfl, rfl, fun _ => rfl⟩

theorem Alike.trans {s₁ s₂ s₃ : Session ω β} (h : Alike s₁ s₂) (h' : Alike s₂ s₃) :
    Alike s₁ s₃ := by
  refine ⟨h'.depth.trans h.depth, h'.counts.trans h.counts, h'.degraded.trans h.degraded,
    fun hopen => ?_⟩
  -- As many scopes are open as before, so if there was one there still is.
  have hopen' : s₂.scopes ≠ [] := by
    have hdepth := h.depth
    rw [← length_pos_iff] at hopen ⊢
    omega
  rw [h'.globals hopen', h.globals hopen]

theorem SameBooks.alike {s s' : Session ω β} (h : SameBooks s s') : Alike s s' :=
  ⟨by rw [h.scopes], h.counts, h.degraded, fun _ => h.globals⟩

theorem alike_record (t : Term) (s : Session ω β) : Alike s (s.record t) := by
  rcases s with ⟨w, phase, globals, scopes, degraded, counts⟩
  cases scopes with
  | nil => exact ⟨rfl, rfl, rfl, fun hopen => absurd rfl hopen⟩
  | cons scope scopes => exact ⟨rfl, rfl, rfl, fun _ => rfl⟩

section Binding

variable {ε σ : Type} {m : ExceptT ε (StateM σ) α} {f : α → ExceptT ε (StateM σ) γ} {s s' : σ}

theorem run_bind_of_eq_ok {a : α} (h : m.run.run s = (.ok a, s')) :
    (m >>= f).run.run s = (f a).run.run s' := by
  rw [ExceptT.run_bind, StateT.run_bind, h]
  rfl

theorem run_bind_of_eq_error {e : ε} (h : m.run.run s = (.error e, s')) :
    (m >>= f).run.run s = (.error e, s') := by
  rw [ExceptT.run_bind, StateT.run_bind, h]
  rfl

theorem exists_of_bind_eq_ok {c : γ} (h : (m >>= f).run.run s = (.ok c, s')) :
    ∃ a s₁, m.run.run s = (.ok a, s₁) ∧ (f a).run.run s₁ = (.ok c, s') := by
  rcases hm : m.run.run s with ⟨r, s₁⟩
  cases r with
  | ok a => exact ⟨a, s₁, rfl, (run_bind_of_eq_ok hm).symm.trans h⟩
  | error e => cases (run_bind_of_eq_error hm).symm.trans h

/-- What the first of two steps relates is related further by the second, if that is
    taken at all. -/
theorem related_bind {R : σ → σ → Prop} (htrans : ∀ {s₁ s₂ s₃}, R s₁ s₂ → R s₂ s₃ → R s₁ s₃)
    (hm : R s (m.run.run s).2)
    (hf : ∀ a s₁, m.run.run s = (.ok a, s₁) → R s₁ ((f a).run.run s₁).2) :
    R s ((m >>= f).run.run s).2 := by
  rcases hrun : m.run.run s with ⟨r, s₁⟩
  rw [hrun] at hm
  cases r with
  | ok a =>
    rw [run_bind_of_eq_ok hrun]
    exact htrans hm (hf a s₁ hrun)
  | error e =>
    rw [run_bind_of_eq_error hrun]
    exact hm

theorem exists_of_mapM_eq_ok {k : α → ExceptT ε (StateM σ) γ} {a : α} {as : List α} {cs : List γ}
    (h : ((a :: as).mapM k).run.run s = (.ok cs, s')) :
    ∃ c rest s₁, cs = c :: rest ∧ (k a).run.run s = (.ok c, s₁) ∧
      (as.mapM k).run.run s₁ = (.ok rest, s') := by
  rw [mapM_cons] at h
  rcases exists_of_bind_eq_ok h with ⟨c, s₁, hfirst, h⟩
  rcases exists_of_bind_eq_ok h with ⟨rest, s₂, hrest, h⟩
  cases h
  exact ⟨c, rest, s₁, rfl, hfirst, hrest⟩

end Binding

section Operations

variable {P : Prover ω β} {H : ω → β → List Term → Prop} {s s' : Session ω β} {ts : List Term}

theorem alike_assume (t : Term) : Alike s ((assume P t).run.run s).2 := by
  rcases assume_cases P s t with ⟨e, _, hrun⟩ | ⟨s', hasked, hrun⟩ | ⟨e, s', hasked, hrun⟩
  · rw [hrun]
    exact .refl s
  · rw [hrun]
    exact hasked.sameBooks.alike.trans (alike_record t s')
  · rw [hrun]
    exact hasked.sameBooks.alike

theorem alike_isValid (t : Term) : Alike s ((isValid P t).run.run s).2 := by
  rcases isValid_cases P s t with ⟨e, _, hrun⟩ | ⟨r, s', hasked, hrun⟩
  · rw [hrun]
    exact .refl s
  · rw [hrun]
    exact hasked.sameBooks.alike

theorem assumes_related {R : Session ω β → Session ω β → Prop} (hrefl : ∀ s, R s s)
    (htrans : ∀ {s₁ s₂ s₃}, R s₁ s₂ → R s₂ s₃ → R s₁ s₃)
    (hstep : ∀ s t, R s ((assume P t).run.run s).2) (ts : List Term) :
    ∀ s, R s ((ts.forM (assume P)).run.run s).2 := by
  induction ts with
  | nil => exact hrefl
  | cons t ts ih =>
    intro s
    have hloop : (t :: ts).forM (assume P) = assume P t >>= fun _ => ts.forM (assume P) := rfl
    rw [hloop]
    exact related_bind htrans (hstep s t) fun _ s₁ _ => ih s₁

theorem alike_assumes (ts : List Term) : Alike s ((ts.forM (assume P)).run.run s).2 :=
  assumes_related Alike.refl Alike.trans (fun _ t => alike_assume t) ts s

theorem moves_assumes {Q : World ω → β → Term → Prop} (ts : List Term) :
    P.Moves Q s.world ((ts.forM (assume P)).run.run s).2.world := by
  refine assumes_related (R := fun s s' => P.Moves Q s.world s'.world) (fun s => .refl s.world)
    Prover.Moves.trans (fun s t => ?_) ts s
  exact moves_assume t

theorem assume_of_ok {t : Term} (h : (assume P t).run.run s = (.ok (), s')) :
    s'.assumptions = s.assumptions ++ [t] ∧ s'.phase.isFailed = false := by
  rcases assume_cases P s t with ⟨e, _, hrun⟩ | ⟨s₁, hasked, hrun⟩ | ⟨e, s₁, _, hrun⟩
  · cases hrun.symm.trans h
  · cases hrun.symm.trans h
    rw [assumptions_record, hasked.sameBooks.assumptions, phase_record]
    exact ⟨rfl, hasked.usable⟩
  · cases hrun.symm.trans h

theorem assumes_of_ok (hP : P.Tracks H) (ts : List Term) : ∀ {s s' : Session ω β},
    s.Mirrors H → s.phase.isFailed = false → (ts.forM (assume P)).run.run s = (.ok (), s') →
      s'.Mirrors H ∧ s'.assumptions = s.assumptions ++ ts ∧ s'.phase.isFailed = false := by
  induction ts with
  | nil =>
    intro s s' hmirrors husable h
    cases h
    exact ⟨hmirrors, (append_nil _).symm, husable⟩
  | cons t ts ih =>
    intro s s' hmirrors _ h
    have hloop : (assume P t >>= fun _ => ts.forM (assume P)).run.run s = (.ok (), s') := h
    rcases exists_of_bind_eq_ok hloop with ⟨u, s₁, hrun, hrest⟩
    have hheld := mirrors_assume hP (t := t) hmirrors
    rw [hrun] at hheld
    rcases assume_of_ok hrun with ⟨hbooks, husable⟩
    rcases ih (hheld (.inr ⟨(), rfl⟩)) husable hrest with ⟨hmirrors', hbooks', husable'⟩
    refine ⟨hmirrors', ?_, husable'⟩
    rw [hbooks', hbooks, append_assoc, singleton_append]

theorem sameBooks_retractAll (ts : List Term) : SameBooks s ((retractAll P ts).run.run s).2 := by
  rcases retractAll_cases P s ts with ⟨_, hrun⟩ | ⟨r, s', hasked, hrun⟩
  · rw [hrun]
    exact ⟨rfl, rfl, rfl, rfl⟩
  · rw [hrun]
    exact hasked.sameBooks

theorem usable_retractAll {u : Unit} (husable : s.phase.isFailed = false)
    (h : (retractAll P ts).run.run s = (.ok u, s')) : s'.phase.isFailed = false := by
  rcases retractAll_cases P s ts with ⟨_, hrun⟩ | ⟨r, s₁, hasked, hrun⟩
  · cases hrun.symm.trans h
    exact husable
  · cases hrun.symm.trans h
    exact hasked.usable

theorem launch_books : SameBooks s { ((launch P).run s).2 with degraded := s.degraded } ∧
    ((launch P).run s).2.phase.isFailed = false := by
  have hlaunched := launched P s
  generalize ((launch P).run s).2 = s' at hlaunched ⊢
  cases hlaunched with
  | told | alone => exact ⟨⟨rfl, rfl, rfl, rfl⟩, rfl⟩

theorem globals_restart : ((restart P).run s).2.globals = s.globals := by
  rcases exists_restart P s with ⟨w, _, hrun⟩
  rw [hrun]
  exact (launch_books (s := s.replaced w)).1.globals

theorem atRest_restart (hP : P.Tracks H) (h : s.counts.pushes = s.counts.pops) :
    AtRest H ((restart P).run s).2 := by
  have hmirrors := mirrors_restart hP (s := s)
  rcases exists_restart P s with ⟨w, _, hrun⟩
  rw [hrun] at hmirrors ⊢
  rcases launch_books (P := P) (s := s.replaced w) with ⟨hbooks, husable⟩
  refine ⟨⟨hbooks.scopes, ?_⟩, husable, hmirrors⟩
  have hcounts := hbooks.counts
  change ((launch P).run (s.replaced w)).2.counts = _ at hcounts
  rw [hcounts]
  exact h

theorem balanced_clearGlobals (h : Balanced s) :
    Balanced ((clearGlobals P).run.run s).2 ∧ ((clearGlobals P).run.run s).2.globals = [] := by
  rcases clearGlobals_cases P s with ⟨hscopes, _⟩ | ⟨hscopes, hrun⟩
  · exact absurd h.scopes hscopes
  · have hbooks := sameBooks_retractAll (P := P) (s := { s with globals := [] }) s.globals
    rw [hrun]
    refine ⟨⟨hbooks.scopes.trans h.scopes, ?_⟩, hbooks.globals⟩
    rw [hbooks.counts]
    exact h.counts

theorem atRest_clearGlobals (hP : P.Tracks H) (h : AtRest H s)
    (hrun : (clearGlobals P).run.run s = (.ok (), s')) : AtRest H s' := by
  have hmirrors := mirrors_clearGlobals hP h.mirrors
  have hbalanced := (balanced_clearGlobals (P := P) h.toBalanced).1
  rw [hrun] at hmirrors hbalanced
  refine ⟨hbalanced, ?_, hmirrors (.inr ⟨(), rfl⟩)⟩
  rcases clearGlobals_cases P s with ⟨hscopes, _⟩ | ⟨_, hclear⟩
  · exact absurd h.scopes hscopes
  · exact usable_retractAll (s := { s with globals := [] }) h.usable (hclear.symm.trans hrun)

end Operations

end Session

namespace Verifier

open Session

variable {P : Prover ω β} {H : ω → β → List Term → Prop} {s s' : Session ω β}

theorem run_revive (h : s.phase.isFailed = false) : (revive P).run s = ((), s) := by
  rcases s with ⟨w, phase, globals, scopes, degraded, counts⟩
  cases phase with
  | failed backend => cases h
  | uninitialized | started backend => rfl

theorem atRest_told (hP : P.Tracks H) (ts : List Term) (h : AtRest H s) (hnone : s.globals = []) :
    (∃ s', (ts.forM (Session.assume P)).run.run s = (.ok (), s') ∧ AtRest H s' ∧ s'.globals = ts) ∨
    ∃ e s', (ts.forM (Session.assume P)).run.run s = (.error e, s') ∧ Balanced s' := by
  have halike := alike_assumes (P := P) (s := s) ts
  rcases hrun : (ts.forM (Session.assume P)).run.run s with ⟨r, s'⟩
  rw [hrun] at halike
  have hbalanced : Balanced s' := by
    refine ⟨eq_nil_of_length_eq_zero ?_, ?_⟩
    · rw [halike.depth, h.scopes, length_nil]
    · rw [halike.counts]
      exact h.counts
  cases r with
  | error e => exact .inr ⟨e, s', rfl, hbalanced⟩
  | ok u =>
    rcases assumes_of_ok hP ts h.mirrors h.usable hrun with ⟨hmirrors, hbooks, husable⟩
    refine .inl ⟨s', rfl, ⟨hbalanced, husable, hmirrors⟩, ?_⟩
    -- Outside of every scope the books list nothing but the global axioms.
    simpa [assumptions, hbalanced.scopes, h.scopes, hnone] using hbooks

/-- Setting the global axioms forgets the old ones and tells the new ones, and
    replaces the prover whenever one of the two fails. -/
theorem setGlobals_cases (ts : List Term) (h : s.phase.isFailed = false) :
    ∃ r s₁ s₂, (Session.clearGlobals P).run.run s = (r, s₁) ∧
      (r = .ok () ∧ s₂ = s₁ ∨ ∃ e, r = .error e ∧ s₂ = ((Session.restart P).run s₁).2) ∧
      ∃ r' s₃, (ts.forM (Session.assume P)).run.run s₂ = (r', s₃) ∧
        (r' = .ok () ∧ ((setGlobals P ts).run s).2 = s₃ ∨ ∃ e, r' = .error e ∧
          ((setGlobals P ts).run s).2 =
            ((Session.restart P).run ((Session.clearGlobals P).run.run s₃).2).2) := by
  -- A session in use is not revived, and then the two steps follow each other.
  have hrevive : (revive P).run s = (pure ((), s) : Id _) := run_revive h
  rcases hclear : (Session.clearGlobals P).run.run s with ⟨r, s₁⟩
  have hclear' : (Session.clearGlobals P).run.run s = (pure (r, s₁) : Id _) := hclear
  unfold setGlobals
  cases r with
  | ok u =>
    rcases htold : (ts.forM (Session.assume P)).run.run s₁ with ⟨r', s₃⟩
    have htold' : (ts.forM (Session.assume P)).run.run s₁ = (pure (r', s₃) : Id _) := htold
    refine ⟨.ok (), s₁, s₁, rfl, .inl ⟨rfl, rfl⟩, r', s₃, htold, ?_⟩
    simp only [StateT.run_bind, hrevive, hclear', htold', pure_bind]
    cases r' with
    | ok u => exact .inl ⟨rfl, rfl⟩
    | error e => exact .inr ⟨e, rfl, rfl⟩
  | error e =>
    rcases hrestart : (Session.restart P).run s₁ with ⟨u, s₂⟩
    have hrestart' : (Session.restart P).run s₁ = (pure (u, s₂) : Id _) := hrestart
    rcases htold : (ts.forM (Session.assume P)).run.run s₂ with ⟨r', s₃⟩
    have htold' : (ts.forM (Session.assume P)).run.run s₂ = (pure (r', s₃) : Id _) := htold
    refine ⟨.error e, s₁, s₂, rfl, .inr ⟨e, rfl, by rw [hrestart]⟩, r', s₃, htold, ?_⟩
    simp only [StateT.run_bind, hrevive, hclear', hrestart', htold', pure_bind]
    cases r' with
    | ok u => exact .inl ⟨rfl, rfl⟩
    | error e => exact .inr ⟨e, rfl, rfl⟩

theorem atRest_setGlobals (hP : P.Tracks H) (ts : List Term) (h : AtRest H s) :
    AtRest H ((setGlobals P ts).run s).2 ∧
      (((setGlobals P ts).run s).2.globals = [] ∨ ((setGlobals P ts).run s).2.globals = ts) := by
  rcases setGlobals_cases ts h.usable with ⟨r, s₁, s₂, hclear, hcleared, r', s₃, htold, hend⟩
  have hforgot := balanced_clearGlobals (P := P) h.toBalanced
  rw [hclear] at hforgot
  -- The old axioms are gone, by retraction or together with their prover.
  have hrest : AtRest H s₂ ∧ s₂.globals = [] := by
    rcases hcleared with ⟨rfl, rfl⟩ | ⟨e, rfl, rfl⟩
    · exact ⟨atRest_clearGlobals hP h hclear, hforgot.2⟩
    · exact ⟨atRest_restart hP hforgot.1.counts, globals_restart.trans hforgot.2⟩
  rcases atRest_told hP ts hrest.1 hrest.2 with ⟨s', hrun, hatRest, hglobals⟩ |
    ⟨e', s', hrun, hbalanced⟩
  · cases htold.symm.trans hrun
    rcases hend with ⟨_, hend⟩ | ⟨e, he, _⟩
    · rw [hend]
      exact ⟨hatRest, .inr hglobals⟩
    · cases he
  · cases htold.symm.trans hrun
    rcases hend with ⟨hok, _⟩ | ⟨e, _, hend⟩
    · cases hok
    · rcases balanced_clearGlobals (P := P) hbalanced with ⟨hbalanced', hnone⟩
      rw [hend]
      exact ⟨atRest_restart hP hbalanced'.counts, .inl (globals_restart.trans hnone)⟩

variable {Q : World ω → β → Term → Prop}

theorem moves_setGlobals (ts : List Term) (h : s.phase.isFailed = false) :
    P.Moves Q s.world ((setGlobals P ts).run s).2.world := by
  rcases setGlobals_cases ts h with ⟨r, s₁, s₂, hclear, hcleared, r', s₃, htold, hend⟩
  -- Forgetting, perhaps a new prover, telling, and perhaps both once more.
  have hfirst : P.Moves Q s.world s₁.world := by
    have hmoves := moves_clearGlobals (P := P) (Q := Q) (s := s)
    rw [hclear] at hmoves
    exact hmoves
  have hsecond : P.Moves Q s₁.world s₂.world := by
    rcases hcleared with ⟨_, rfl⟩ | ⟨e, _, rfl⟩
    · exact .refl _
    · exact moves_restart
  have hthird : P.Moves Q s₂.world s₃.world := by
    have hmoves := moves_assumes (P := P) (Q := Q) (s := s₂) ts
    rw [htold] at hmoves
    exact hmoves
  have hall := (hfirst.trans hsecond).trans hthird
  rcases hend with ⟨_, hend⟩ | ⟨e, _, hend⟩
  · rw [hend]
    exact hall
  · rw [hend]
    exact (hall.trans moves_clearGlobals).trans moves_restart

theorem check_cases (vc : Term) (h : s.phase.isFailed = false) :
    ∃ r s', (Session.withScope P (query P vc)).run.run s = (r, s') ∧
      ((∃ valid, r = .ok valid ∧ (check P vc).run s = (some valid, s')) ∨
        ∃ e, r = .error e ∧ (check P vc).run s = (none, ((Session.restart P).run s').2)) := by
  have hrevive : (revive P).run s = (pure ((), s) : Id _) := run_revive h
  rcases hscope : (Session.withScope P (query P vc)).run.run s with ⟨r, s'⟩
  have hscope' : (Session.withScope P (query P vc)).run.run s = (pure (r, s') : Id _) := hscope
  refine ⟨r, s', rfl, ?_⟩
  unfold check
  simp only [StateT.run_bind, hrevive, hscope', pure_bind]
  cases r with
  | ok valid => exact .inl ⟨valid, rfl, rfl⟩
  | error e => exact .inr ⟨e, rfl, rfl⟩

theorem query_eq (vc : Term) : query P vc =
    (vc.collectAxioms.items.forM (Session.assume P) >>= fun _ => Session.isValid P vc) :=
  rfl

theorem alike_query (vc : Term) : Session.Alike s ((query P vc).run.run s).2 := by
  rw [query_eq]
  exact related_bind Alike.trans (alike_assumes _) fun _ _ _ => alike_isValid vc

theorem query_of_eq_ok {vc : Term} {valid : Bool} (h : (query P vc).run.run s = (.ok valid, s')) :
    ∃ s₁, (vc.collectAxioms.items.forM (Session.assume P)).run.run s = (.ok (), s₁) ∧
      (Session.isValid P vc).run.run s₁ = (.ok valid, s') := by
  rcases exists_of_bind_eq_ok h with ⟨u, s₁, htold, hanswer⟩
  exact ⟨s₁, htold, hanswer⟩

theorem query_of_ok (hP : P.Tracks H) {vc : Term} {valid : Bool} (hmirrors : s.Mirrors H)
    (husable : s.phase.isFailed = false) (h : (query P vc).run.run s = (.ok valid, s')) :
    s'.Mirrors H ∧ s'.phase.isFailed = false := by
  rcases query_of_eq_ok h with ⟨s₁, hrun, hanswer⟩
  rcases assumes_of_ok hP _ hmirrors husable hrun with ⟨hmirrors₁, _, _⟩
  have hmirrors' := mirrors_isValid hP (t := vc) hmirrors₁
  rw [hanswer] at hmirrors'
  refine ⟨hmirrors' (.inr ⟨valid, rfl⟩), ?_⟩
  rcases isValid_cases P s₁ vc with ⟨e, _, hrefused⟩ | ⟨r, s₂, hasked, hrun⟩
  · cases hrefused.symm.trans hanswer
  · -- Only a session that is in use gets an answer.
    cases hrun.symm.trans hanswer
    exact hasked.usable

theorem moves_query (hP : P.Tracks H) (vc : Term) (hmirrors : s.Mirrors H)
    (husable : s.phase.isFailed = false)
    (hQ : ∀ w b, H w.outside b (s.assumptions ++ vc.collectAxioms.items) → Q w b vc) :
    P.Moves Q s.world ((query P vc).run.run s).2.world := by
  rw [query_eq]
  refine related_bind (R := fun s s' : Session ω β => P.Moves Q s.world s'.world)
    Prover.Moves.trans (moves_assumes _) fun _ s₁ hrun =>
      moves_isValid fun b hphase => hQ _ _ ?_
  rcases assumes_of_ok hP _ hmirrors husable hrun with ⟨hmirrors₁, hbooks, _⟩
  rw [← hbooks]
  exact hmirrors₁.held b hphase

theorem scoped_cases (vc : Term) (h : Balanced s) :
    (∃ e, (∀ backend, s.phase ≠ .started backend) ∧
      (Session.withScope P (query P vc)).run.run s = (.error e, s)) ∨
    ∃ r s₁ closed s₂, (∃ backend, s.phase = .started backend) ∧
      (query P vc).run.run s.pushed = (r, s₁) ∧ (Session.pop P).run.run s₁ = (closed, s₂) ∧
      (Session.withScope P (query P vc)).run.run s =
        (r.bind fun valid => closed.map fun _ => valid, s₂) ∧
      Balanced s₂ ∧ s₂.globals = s.globals ∧ s₂.degraded = s.degraded := by
  rcases withScope_cases P s (query P vc) with ⟨e, hphase, hrun⟩ |
    ⟨r, s₁, closed, s₂, hphase, hquery, hclose, hrun⟩
  · exact .inl ⟨e, hphase, hrun⟩
  · have halike := alike_query (P := P) (s := s.pushed) vc
    rw [hquery] at halike
    have hdepth : s₁.scopes.length = 1 := by
      rw [halike.depth]
      simp [pushed, h.scopes]
    -- Only the one scope was opened since, so only that one is closed.
    have hopened : s₁.depth - s.depth = 1 := by
      simp [depth, hdepth, h.scopes]
    rw [hopened, popMany_one] at hclose
    refine .inr ⟨r, s₁, closed, s₂, hphase, hquery, hclose, hrun, ?_⟩
    rcases pop_cases P s₁ with ⟨hnone, _⟩ | ⟨scope, scopes, hscopes, hpop⟩
    · simp [hnone] at hdepth
    · have hbooks := sameBooks_retractAll (P := P) (s := s₁.popped scopes) scope
      rw [← hpop, hclose] at hbooks
      have hlast : scopes = [] := by
        rw [hscopes] at hdepth
        exact eq_nil_of_length_eq_zero (by simpa using hdepth)
      have hglobals : s₁.globals = s.globals := halike.globals (by simp [pushed])
      refine ⟨⟨hbooks.scopes.trans hlast, ?_⟩, hbooks.globals.trans hglobals,
        hbooks.degraded.trans halike.degraded⟩
      have hcounts : s₁.counts = s.pushed.counts := halike.counts
      have hbalance := h.counts
      rw [hbooks.counts]
      simp only [popped, hcounts, pushed]
      omega

theorem check_of_eq_some {vc : Term} {valid : Bool} (hrest : AtRest H s)
    (h : (check P vc).run s = (some valid, s')) :
    ∃ backend s₁, s.phase = .started backend ∧ (query P vc).run.run s.pushed = (.ok valid, s₁) ∧
      (Session.pop P).run.run s₁ = (.ok (), s') ∧ s'.degraded = s.degraded := by
  rcases check_cases (P := P) vc hrest.usable with ⟨r, s₂, hscope, hcheck⟩
  rcases hcheck with ⟨valid', rfl, hcheck⟩ | ⟨e, rfl, hcheck⟩
  · cases hcheck.symm.trans h
    rcases scoped_cases (P := P) vc hrest.toBalanced with ⟨e, _, hrun⟩ |
      ⟨r₁, s₁, closed, s₂, ⟨backend, hphase⟩, hquery, hpop, hrun, _, _, hdegraded⟩
    · cases hscope.symm.trans hrun
    · have hboth := hscope.symm.trans hrun
      -- Both the query and the end of the scope went well.
      cases r₁ with
      | error e => cases hboth
      | ok valid₁ =>
        cases closed with
        | error e => cases hboth
        | ok u =>
          cases hboth
          exact ⟨backend, s₁, hphase, hquery, hpop, hdegraded⟩
  · cases hcheck.symm.trans h

theorem atRest_check (hP : P.Tracks H) (vc : Term) (h : AtRest H s) :
    AtRest H ((check P vc).run s).2 ∧ ((check P vc).run s).2.globals = s.globals := by
  rcases check_cases (P := P) vc h.usable with ⟨r, s', hscope, hcheck⟩
  have hbalanced : Balanced s' ∧ s'.globals = s.globals := by
    rcases scoped_cases (P := P) vc h.toBalanced with ⟨e, _, hrun⟩ |
      ⟨r₁, s₁, closed, s₂, _, _, _, hrun, hbalanced, hglobals, _⟩
    · cases hscope.symm.trans hrun
      exact ⟨h.toBalanced, rfl⟩
    · cases hscope.symm.trans hrun
      exact ⟨hbalanced, hglobals⟩
  rcases hcheck with ⟨valid, rfl, hcheck⟩ | ⟨e, rfl, hcheck⟩
  · rw [hcheck]
    refine ⟨?_, hbalanced.2⟩
    rcases check_of_eq_some h hcheck with ⟨backend, s₁, hphase, hquery, hpop, _⟩
    have husable : s.pushed.phase.isFailed = false := h.usable
    rcases query_of_ok hP (mirrors_pushed ⟨backend, hphase⟩ h.mirrors) husable hquery with
      ⟨hmirrors, husable₁⟩
    have hmirrors' := mirrors_pop hP hmirrors
    rw [hpop] at hmirrors'
    refine ⟨hbalanced.1, ?_, hmirrors' (.inr ⟨(), rfl⟩)⟩
    rcases pop_cases P s₁ with ⟨_, hnone⟩ | ⟨scope, scopes, _, hretract⟩
    · cases hnone.symm.trans hpop
    · exact usable_retractAll (s := s₁.popped scopes) husable₁ (hretract.symm.trans hpop)
  · rw [hcheck]
    exact ⟨atRest_restart hP hbalanced.1.counts, globals_restart.trans hbalanced.2⟩

theorem moves_check (hP : P.Tracks H) (vc : Term) (h : AtRest H s)
    (hQ : ∀ w b, H w.outside b (s.globals ++ vc.collectAxioms.items) → Q w b vc) :
    P.Moves Q s.world ((check P vc).run s).2.world := by
  rcases check_cases (P := P) vc h.usable with ⟨r, s', hscope, hcheck⟩
  have hmoves : P.Moves Q s.world s'.world := by
    rcases scoped_cases (P := P) vc h.toBalanced with ⟨e, _, hrun⟩ |
      ⟨r₁, s₁, closed, s₂, hphase, hquery, hpop, hrun, _⟩
    · cases hscope.symm.trans hrun
      exact .refl _
    · cases hscope.symm.trans hrun
      have husable : s.pushed.phase.isFailed = false := h.usable
      -- Inside the new scope the books still list the global axioms only.
      have hbooks : s.pushed.assumptions = s.globals := by
        rw [assumptions_pushed, assumptions, h.scopes]
        simp
      have hasked := moves_query hP vc (mirrors_pushed hphase h.mirrors) husable (hbooks ▸ hQ)
      have hclosed := moves_pop (P := P) (Q := Q) (s := s₁)
      rw [hquery] at hasked
      rw [hpop] at hclosed
      exact hasked.trans hclosed
  rcases hcheck with ⟨valid, _, hcheck⟩ | ⟨e, _, hcheck⟩
  · rw [hcheck]
    exact hmoves
  · rw [hcheck]
    exact hmoves.trans moves_restart

/-- What a verifier that is watched has left in the log. -/
def log (v : Verifier (ω × List (ProverCall β)) β) : List (ProverCall β) :=
  v.session.world.outside.2

/-- The verifier with another supply. -/
def restocked (v : Verifier ω β) (supply : Supply) : Verifier ω β :=
  { v with session := { v.session with world := { v.session.world with supply } } }

theorem atRest_restocked {v : Verifier ω β} (h : v.session.AtRest H) (supply : Supply) :
    (v.restocked supply).session.AtRest H :=
  ⟨⟨h.scopes, h.counts⟩, h.usable, ⟨h.mirrors.held, h.mirrors.unopened⟩⟩

section Calls

variable (v : Verifier ω β)

theorem run_build (m : Fresh (Except VerifyError α)) :
    (build m).run.run v =
      ((m.run v.session.world.supply).1, v.restocked (m.run v.session.world.supply).2) := by
  have hrun : (build m).run.run v =
      (liftExcept (m.run v.session.world.supply).1 : VerifierM ω β α).run.run
        (v.restocked (m.run v.session.world.supply).2) := rfl
  rw [hrun]
  cases (m.run v.session.world.supply).1 <;> rfl

theorem install_cases (prog : Program) :
    (∃ e supply, prog.axiomTerms.run v.session.world.supply = (.error e, supply) ∧
      (install prog).run.run v = (.error e, v.restocked supply)) ∨
    ∃ terms supply, prog.axiomTerms.run v.session.world.supply = (.ok terms, supply) ∧
      (install prog).run.run v = (.ok (),
        { v with
          scope := .ofProgram prog
          session := ((setGlobals v.prover terms).run (v.restocked supply).session).2 }) := by
  have hbuild := run_build v prog.axiomTerms
  unfold install
  rw [ExceptT.run_bind, StateT.run_bind, hbuild]
  rcases prog.axiomTerms.run v.session.world.supply with ⟨r, supply⟩
  cases r with
  | error e => exact .inl ⟨e, supply, rfl, rfl⟩
  | ok terms => exact .inr ⟨terms, supply, rfl, rfl⟩

theorem verify_cases (r : Routine) :
    (∃ e supply, (condition v.style v.scope r).run v.session.world.supply = (.error e, supply) ∧
      (verify r).run.run v = (.error e, v.restocked supply)) ∨
    ∃ vc supply, (condition v.style v.scope r).run v.session.world.supply = (.ok vc, supply) ∧
      (verify r).run.run v =
        (.ok (.ofAnswer ((check v.prover vc).run (v.restocked supply).session).1),
          { v with session := ((check v.prover vc).run (v.restocked supply).session).2 }) := by
  have hbuild := run_build v (condition v.style v.scope r)
  unfold verify
  rw [run_getThe_bind, ExceptT.run_bind, StateT.run_bind, hbuild]
  rcases (condition v.style v.scope r).run v.session.world.supply with ⟨r, supply⟩
  cases r with
  | error e => exact .inl ⟨e, supply, rfl, rfl⟩
  | ok vc => exact .inr ⟨vc, supply, rfl, rfl⟩

theorem process_cases (prog : Program) :
    (∃ e, prog.prepare = .error e ∧ (process prog).run.run v = (.error e, v)) ∨
    ∃ prepared, prog.prepare = .ok prepared ∧
      (process prog).run.run v =
        (((install prog).run.run v).1.map fun _ => prepared, ((install prog).run.run v).2) := by
  unfold process
  rw [ExceptT.run_bind, StateT.run_bind]
  cases hprepare : prog.prepare with
  | error e => exact .inl ⟨e, rfl, rfl⟩
  | ok prepared =>
    refine .inr ⟨prepared, rfl, ?_⟩
    change ((install prog >>= fun _ => pure prepared : VerifierM ω β Program)).run.run v = _
    rw [ExceptT.run_bind, StateT.run_bind]
    rcases (install prog).run.run v with ⟨r, v'⟩
    cases r <;> rfl

end Calls

end Verifier

/-- What can be done with a verifier. -/
inductive VerifierStep
  | process (prog : Program)
  | install (prog : Program)
  | verify (r : Routine)
  | terminate

namespace VerifierStep

open Session

/-- The verifier after the step, whatever came of it. -/
def after (v : Verifier ω β) : VerifierStep → Verifier ω β
  | process prog => ((Verifier.process prog).run.run v).2
  | install prog => ((Verifier.install prog).run.run v).2
  | verify r => ((Verifier.verify r).run.run v).2
  | terminate => v.terminate

/-- The axioms of the program that the step installs, if it does. -/
def encoded (v : Verifier ω β) : VerifierStep → Option (List Term)
  | process prog => prog.prepare.toOption.bind fun _ =>
    (prog.axiomTerms.run v.session.world.supply).1.toOption
  | install prog => (prog.axiomTerms.run v.session.world.supply).1.toOption
  | _ => none

/-- A verifier with the axioms of the program that was installed last, after one
    more step. -/
def advance (now : Verifier ω β × Option (List Term)) (step : VerifierStep) :
    Verifier ω β × Option (List Term) :=
  (step.after now.1, (step.encoded now.1).or now.2)

/-- The same after a course of steps, of which the first finds nothing installed. -/
def history (v : Verifier ω β) (steps : List VerifierStep) : Verifier ω β × Option (List Term) :=
  steps.foldl advance (v, none)

/-- What every step keeps up. -/
structure Kept (P : Prover ω β) (H : ω → β → List Term → Prop)
    (now : Verifier ω β × Option (List Term)) : Prop where
  prover : now.1.prover = P
  atRest : now.1.session.AtRest H
  globals : now.1.session.globals = [] ∨ now.2 = some now.1.session.globals

variable {P : Prover ω β} {H : ω → β → List Term → Prop} {last : Option (List Term)}
  {v : Verifier ω β}

theorem Kept.install (hP : P.Tracks H) (h : Kept P H (v, last)) (prog : Program) :
    Kept P H ((VerifierStep.install prog).after v,
      ((VerifierStep.install prog).encoded v).or last) := by
  simp only [after, encoded]
  rcases v.install_cases prog with ⟨e, supply, hterms, hrun⟩ | ⟨terms, supply, hterms, hrun⟩
  · rw [hrun, hterms]
    exact ⟨h.prover, Verifier.atRest_restocked h.atRest supply, h.globals⟩
  · rw [hrun, hterms]
    have hset := Verifier.atRest_setGlobals hP terms (Verifier.atRest_restocked h.atRest supply)
    have hprover : v.prover = P := h.prover
    rw [← hprover] at hset ⊢
    refine ⟨rfl, hset.1, ?_⟩
    -- None of the new axioms are left, or all of them are.
    rcases hset.2 with hnone | hterms
    · exact .inl hnone
    · exact .inr (congrArg some hterms.symm)

theorem Kept.step (hP : P.Tracks H) (h : Kept P H (v, last)) (step : VerifierStep) :
    Kept P H (step.after v, (step.encoded v).or last) := by
  cases step with
  | process prog =>
    simp only [after, encoded]
    rcases v.process_cases prog with ⟨e, hprepare, hrun⟩ | ⟨prepared, hprepare, hrun⟩
    · rw [hrun, hprepare]
      exact h
    · rw [hrun, hprepare]
      exact h.install hP prog
  | install prog => exact h.install hP prog
  | verify r =>
    simp only [after, encoded]
    rcases v.verify_cases r with ⟨e, supply, _, hrun⟩ | ⟨vc, supply, _, hrun⟩
    · rw [hrun]
      exact ⟨h.prover, Verifier.atRest_restocked h.atRest supply, h.globals⟩
    · rw [hrun]
      have hcheck := Verifier.atRest_check hP vc (Verifier.atRest_restocked h.atRest supply)
      have hprover : v.prover = P := h.prover
      rw [← hprover] at hcheck ⊢
      refine ⟨rfl, hcheck.1, ?_⟩
      change _ = [] ∨ last = some _
      rw [hcheck.2]
      exact h.globals
  | terminate =>
    rcases exists_terminate v.prover v.session with ⟨w, _, hrun⟩
    have hend : v.terminate.session = v.session.stopped w := congrArg Prod.snd hrun
    have hmirrors : v.terminate.session.Mirrors H := mirrors_terminate
    simp only [after, encoded]
    refine ⟨h.prover, ⟨⟨?_, ?_⟩, ?_, hmirrors⟩, ?_⟩
    · rw [hend]
      rfl
    · rw [hend]
      exact h.atRest.counts
    · rw [hend]
      rfl
    · change v.terminate.session.globals = [] ∨ last = some v.terminate.session.globals
      rw [hend]
      exact h.globals

theorem kept_init (hP : P.Tracks H) (style : ConditionStyle) (w : World ω) :
    Kept P H (Verifier.init P style w, none) := by
  have hmirrors : ((start P).run { world := w }).2.Mirrors H :=
    mirrors_start hP ⟨fun _ hb => (by cases hb), fun _ => rfl⟩ fun _ => rfl
  rcases launch_books (P := P) (s := { world := w }) with ⟨hbooks, husable⟩
  refine ⟨rfl, ⟨⟨hbooks.scopes, ?_⟩, husable, hmirrors⟩, .inl hbooks.globals⟩
  have hcounts := congrArg (fun counts => (counts.pushes, counts.pops)) hbooks.counts
  exact (congrArg Prod.fst hcounts).trans (congrArg Prod.snd hcounts).symm

theorem kept_history (hP : P.Tracks H) (style : ConditionStyle) (w : World ω)
    (steps : List VerifierStep) : Kept P H (history (Verifier.init P style w) steps) := by
  unfold history
  -- The induction is on the steps, from wherever the verifier has come to.
  have hkept : ∀ (steps : List VerifierStep) (now : Verifier ω β × Option (List Term)),
      Kept P H now → Kept P H (steps.foldl advance now) := by
    intro steps
    induction steps with
    | nil => exact fun _ h => h
    | cons step steps ih => exact fun now h => ih _ (h.step hP step)
  exact hkept steps _ (kept_init hP style w)

section Queries

variable {p : Prover ω β} {v : Verifier (ω × List (ProverCall β)) β}

/-- The queries among the calls of a step from the given verifier are put by a
    check of a routine, and to a prover that holds the global axioms and then what
    the condition depends on. -/
def Asks (v : Verifier (ω × List (ProverCall β)) β) (step : VerifierStep)
    (calls : List (ProverCall β)) : Prop :=
  ∀ before b t r rest, calls = before ++ .isValid b t r :: rest → ∃ routine,
    step = .verify routine ∧
    ((Verifier.condition v.style v.scope routine).run v.session.world.supply).1 = .ok t ∧
    heldAfter (v.log ++ before) = some (v.session.globals ++ t.collectAxioms.items)

theorem asks_nil (step : VerifierStep) : Asks v step [] :=
  fun _ _ _ _ _ heq => by simp at heq

theorem exists_asks_of_quiet {step : VerifierStep} {w w' : World (ω × List (ProverCall β))}
    (hw : w.outside.2 = v.log) (h : p.observed.Moves (fun _ _ _ => False) w w') :
    ∃ calls, w'.outside.2 = v.log ++ calls ∧ Asks v step calls := by
  rcases Prover.log_of_moves (Q := fun _ _ => False) h with ⟨calls, hlog, hquery⟩
  rw [hw] at hlog
  exact ⟨calls, hlog, fun before b t r rest heq => (hquery before b t r rest heq).elim⟩

variable {last : Option (List Term)}

theorem exists_asks_install
    (h : Kept p.observed (fun outside _ ts => heldAfter outside.2 = some ts) (v, last))
    (prog : Program) (step : VerifierStep) :
    ∃ calls, ((VerifierStep.install prog).after v).log = v.log ++ calls ∧ Asks v step calls := by
  simp only [after]
  rcases v.install_cases prog with ⟨e, supply, _, hrun⟩ | ⟨terms, supply, _, hrun⟩
  · rw [hrun]
    exact ⟨[], (append_nil _).symm, asks_nil step⟩
  · have hprover : v.prover = p.observed := h.prover
    rw [hrun, hprover]
    exact exists_asks_of_quiet (w := (v.restocked supply).session.world) rfl
      (Verifier.moves_setGlobals terms h.atRest.usable)

theorem exists_asks
    (h : Kept p.observed (fun outside _ ts => heldAfter outside.2 = some ts) (v, last))
    (step : VerifierStep) : ∃ calls, (step.after v).log = v.log ++ calls ∧ Asks v step calls := by
  have hnone : ∃ calls, v.log = v.log ++ calls ∧ Asks v step calls :=
    ⟨[], (append_nil _).symm, asks_nil step⟩
  cases step with
  | process prog =>
    simp only [after]
    rcases v.process_cases prog with ⟨e, _, hrun⟩ | ⟨prepared, _, hrun⟩
    · rw [hrun]
      exact hnone
    · rw [hrun]
      exact exists_asks_install h prog _
  | install prog => exact exists_asks_install h prog _
  | verify routine =>
    simp only [after]
    rcases v.verify_cases routine with ⟨e, supply, _, hrun⟩ | ⟨vc, supply, hvc, hrun⟩
    · rw [hrun]
      exact hnone
    · -- Only a check asks something, and its queries are known.
      have hprover : v.prover = p.observed := h.prover
      rcases Prover.log_of_moves (Q := fun calls t => t = vc ∧
        heldAfter calls = some (v.session.globals ++ vc.collectAxioms.items))
        (Verifier.moves_check p.tracks_observed vc (Verifier.atRest_restocked h.atRest supply)
          fun _ _ hheld => ⟨rfl, hheld⟩) with ⟨calls, hlog, hquery⟩
      rw [hrun, hprover]
      refine ⟨calls, hlog, fun before b t r rest heq => ?_⟩
      rcases hquery before b t r rest heq with ⟨rfl, hheld⟩
      exact ⟨routine, rfl, by rw [hvc], hheld⟩
  | terminate =>
    simp only [after]
    have hprover : v.prover = p.observed := h.prover
    have hquiet : p.observed.Moves (fun _ _ _ => False) v.session.world
        v.terminate.session.world := by
      rw [← hprover]
      exact moves_terminate
    exact exists_asks_of_quiet rfl hquiet

end Queries

section Views

variable {ω' : Type} {g : ω' → ω} {q : Prover ω' β} {p : Prover ω β} {v : Verifier ω' β}
  {v' : Verifier ω β}

theorem sees_after (hc : q.Covers g p) (h : Verifier.Sees g q p v v') (step : VerifierStep) :
    Verifier.Sees g q p (step.after v) (step.after v') := by
  cases step with
  | process prog => exact (Verifier.simulates_process hc prog v v' h).2
  | install prog => exact (Verifier.simulates_install hc prog v v' h).2
  | verify r => exact (Verifier.simulates_verify hc r v v' h).2
  | terminate => exact Verifier.sees_terminate hc h

theorem encoded_eq (h : Verifier.Sees g q p v v') (step : VerifierStep) :
    step.encoded v' = step.encoded v := by
  have hsupply : v'.session.world.supply = v.session.world.supply := by
    rw [h.session]
    rfl
  cases step <;> simp only [encoded, hsupply]

theorem sees_history (hc : q.Covers g p) (steps : List VerifierStep)
    (h : Verifier.Sees g q p v v') :
    Verifier.Sees g q p (history v steps).1 (history v' steps).1 ∧
      (history v' steps).2 = (history v steps).2 := by
  unfold history
  have hsees : ∀ (steps : List VerifierStep) (now : Verifier ω' β × Option (List Term))
      (now' : Verifier ω β × Option (List Term)), Verifier.Sees g q p now.1 now'.1 →
      now'.2 = now.2 →
      Verifier.Sees g q p (steps.foldl advance now).1 (steps.foldl advance now').1 ∧
        (steps.foldl advance now').2 = (steps.foldl advance now).2 := by
    intro steps
    induction steps with
    | nil => exact fun _ _ hv hlast => ⟨hv, hlast⟩
    | cons step steps ih =>
      intro now now' hv hlast
      refine ih _ _ (sees_after hc hv step) ?_
      simp only [advance, encoded_eq hv step, hlast]
  exact hsees steps _ _ h rfl

end Views

/-- What holds of a verifier between two calls. `last` are the axioms of the program
    that was installed last. -/
structure Recovered (last : Option (List Term)) (v : Verifier (ω × List (ProverCall β)) β) :
    Prop where
  /-- No scope is open. -/
  depth : v.session.depth = 0
  balanced : v.session.counts.pushes = v.session.counts.pops
  usable : v.session.phase.isFailed = false
  globals : v.session.globals = [] ∨ last = some v.session.globals
  /-- No call failed since the prover was started, and it holds the global axioms. -/
  held : ∀ b, v.session.phase = .started (.prover b) → heldAfter v.log = some v.session.globals
  /-- Whatever is done next, queries are put to a prover that holds what it should. -/
  asks : ∀ step, ∃ calls, (step.after v).log = v.log ++ calls ∧ Asks v step calls

/-- **Verifiers recover.** Whatever is done with a verifier, and whatever its prover
    does, after each call no assumption is left over and none is lost. -/
theorem recovered_history (p : Prover ω β) (style : ConditionStyle) (w : World ω)
    (steps : List VerifierStep) :
    Recovered (history (Verifier.init p style w) steps).2
      (history (Verifier.init p.observed style w.blank) steps).1 ∧
    Verifier.Sees Prod.fst p.observed p (history (Verifier.init p.observed style w.blank) steps).1
      (history (Verifier.init p style w) steps).1 := by
  have hkept := kept_history p.tracks_observed style w.blank steps
  have hsees := sees_history p.covers_observed steps
    (Verifier.sees_init p.covers_observed style w.blank)
  refine ⟨?_, hsees.1⟩
  have hbooks : (history (Verifier.init p.observed style w.blank) steps).1.session.assumptions =
      (history (Verifier.init p.observed style w.blank) steps).1.session.globals :=
    assumptions_of_flatten _ (by rw [hkept.atRest.scopes]; rfl)
  refine ⟨?_, hkept.atRest.counts, hkept.atRest.usable, ?_, ?_, exists_asks hkept⟩
  · rw [depth, hkept.atRest.scopes]
    rfl
  · have hlast : (history (Verifier.init p style w) steps).2 =
        (history (Verifier.init p.observed style w.blank) steps).2 := hsees.2
    rw [hlast]
    exact hkept.globals
  · intro b hphase
    rw [← hbooks]
    exact hkept.atRest.mirrors.held b hphase

end VerifierStep

end Vouch
