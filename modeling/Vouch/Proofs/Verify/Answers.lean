import Vouch.Proofs.Verify.Checked

/-!
# Provers That Answer

Here is what more can be said if the prover takes every assumption and every
retraction, and if its answer is determined by what it holds and what it is
asked. Queries may still fail, and crash the prover. But a restart finds another one,
which is told the global axioms, so between two calls the session always serves.

## Main definitions

* `Prover.Answers`: Such provers.
* `Session.Serving`: A session has a prover, between two calls.

## Theorems

* `Prover.Answers.check`: A check gets the answer for the global axioms and what the
  condition depends on, whatever was asked before.
-/

namespace Vouch

open ProverM Session Verifier

variable {ω β : Type}

/-- The prover always starts, takes every assumption and retracts every assumption
    that it holds. What it answers is a function of what it holds and of the
    question, where no answer stands for a failure. It never leaves the family of
    the supply it is given. -/
structure Prover.Answers (P : Prover ω β) (H : ω → β → List Term → Prop)
    (answer : List Term → Term → Option Bool) (stub : Bool) : Prop extends P.Tracks H where
  starts : ∀ w, ∃ b w', P.start.run w = (.ok b, w')
  assumes : ∀ {ts b w}, H w.outside b ts → ∀ t, ∃ b' w', Yields (P.assume t) b w (.ok ()) b' w'
  retracts : ∀ {ts t b w}, H w.outside b (ts ++ [t]) → ∃ b' w', Yields P.retract b w (.ok ()) b' w'
  answers : ∀ {ts t b w r b' w'}, H w.outside b ts → Yields (P.isValid t) b w r b' w' →
    r.toOption = answer ts t
  isStub : ∀ {o b ts}, H o b ts → P.isStub b = stub
  family : ∀ {Q w w'}, P.Step Q w w' → w'.supply.family = w.supply.family

/-- The session has a prover, between two calls. -/
structure Session.Serving (H : ω → β → List Term → Prop) (stub : Bool) (s : Session ω β) : Prop
    extends AtRest H s where
  served : ∃ b, s.phase = .started (.prover b)
  degraded : s.degraded = stub
  family : s.world.supply.family = 0

theorem Session.Asked.exists_ok {α : Type} {d : α} {q : ProverM ω β α}
    {r : Except ProverError α} {s s' : Session ω β} (h : Asked d q s r s')
    (hserved : ∃ b, s.phase = .started (.prover b))
    (hq : ∀ {b}, s.phase = .started (.prover b) → ∃ a b' w', Yields q b s.world (.ok a) b' w') :
    ∃ a, r = .ok a ∧ ∃ b, s'.phase = .started (.prover b) := by
  rcases hserved with ⟨b, hb⟩
  cases h with
  | nobody hphase => cases hb.symm.trans hphase
  | @answered _ a b' _ hphase hyields => exact ⟨a, rfl, b', rfl⟩
  | failed hphase hyields =>
    rcases hq hphase with ⟨a, b', w', hok⟩
    cases hyields.symm.trans hok

namespace Prover.Answers

variable {P : Prover ω β} {H : ω → β → List Term → Prop}
  {answer : List Term → Term → Option Bool} {stub : Bool} {s s' : Session ω β}

section Calls

variable (hP : P.Answers H answer stub)
include hP

theorem family_of_moves {Q : World ω → β → Term → Prop} {w w' : World ω} (h : P.Moves Q w w')
    (hw : w.supply.family = 0) : w'.supply.family = 0 :=
  h.keeps (K := fun w => w.supply.family = 0) (fun _ _ hstep hw => (hP.family hstep).trans hw) hw

theorem exists_tell (ts : List Term) : ∀ {us : List Term} {b : β} {w : World ω},
    H w.outside b us → ∃ b' w', Yields (tell P ts) b w (.ok ()) b' w' := by
  induction ts with
  | nil => exact fun {us b w} _ => ⟨b, w, rfl⟩
  | cons t ts ih =>
    intro us b w hheld
    rcases hP.assumes hheld t with ⟨b₁, w₁, hfirst⟩
    rcases ih (hP.assume hheld hfirst) with ⟨b', w', hrest⟩
    exact ⟨b', w', (run_bind_of_ok hfirst).trans hrest⟩

theorem exists_retracts : ∀ {xs us ts : List Term} {b : β} {w : World ω},
    H w.outside b (ts ++ us) → us.length = xs.length →
    ∃ b' w', Yields (xs.forM fun _ => P.retract) b w (.ok ()) b' w' := by
  intro xs
  induction xs with
  | nil => exact fun {us ts b w} _ _ => ⟨b, w, rfl⟩
  | cons x xs ih =>
    intro us ts b w hheld hlength
    -- The first retraction takes back the last of the terms.
    rcases List.eq_nil_or_concat us with rfl | ⟨us', u, rfl⟩
    · simp at hlength
    · rw [List.concat_eq_append, ← List.append_assoc] at hheld
      rcases hP.retracts hheld with ⟨b₁, w₁, hfirst⟩
      rcases ih (hP.retract hheld hfirst) (by simpa using hlength) with ⟨b', w', hrest⟩
      exact ⟨b', w', (run_bind_of_ok hfirst).trans hrest⟩

theorem exists_assume (hmirrors : s.Mirrors H) (hserved : ∃ b, s.phase = .started (.prover b))
    (t : Term) : ∃ s', (Session.assume P t).run.run s = (.ok (), s') ∧
      ∃ b, s'.phase = .started (.prover b) := by
  have htaken : ∀ {b}, s.phase = .started (.prover b) →
      ∃ a b' w', Yields (P.assume t) b s.world (.ok a) b' w' := fun hb =>
    ⟨(), hP.assumes (hmirrors.held _ hb) t⟩
  rcases assume_cases P s t with ⟨e, hphase, _⟩ | ⟨s₁, hasked, hrun⟩ | ⟨e, s₁, hasked, _⟩
  · rcases hserved with ⟨b, hb⟩
    exact absurd hb (hphase _)
  · rcases hasked.exists_ok hserved htaken with ⟨_, _, b, hb⟩
    exact ⟨s₁.record t, hrun, b, (phase_record s₁ t).trans hb⟩
  · rcases hasked.exists_ok hserved htaken with ⟨_, hok, _⟩
    cases hok

theorem exists_assumes (ts : List Term) : ∀ {s : Session ω β}, s.Mirrors H →
    (∃ b, s.phase = .started (.prover b)) →
    ∃ s', (ts.forM (Session.assume P)).run.run s = (.ok (), s') ∧
      ∃ b, s'.phase = .started (.prover b) := by
  induction ts with
  | nil => exact fun {s} _ hserved => ⟨s, rfl, hserved⟩
  | cons t ts ih =>
    intro s hmirrors hserved
    rcases hP.exists_assume hmirrors hserved t with ⟨s₁, hrun, hserved₁⟩
    have hmirrors₁ := mirrors_assume hP.toTracks (t := t) hmirrors
    rw [hrun] at hmirrors₁
    rcases ih (hmirrors₁ (.inr ⟨(), rfl⟩)) hserved₁ with ⟨s', hrest, hserved'⟩
    exact ⟨s', (run_bind_of_eq_ok hrun).trans hrest, hserved'⟩

theorem exists_retractAll {ts us : List Term} (hheld : s.Holds H (us ++ ts))
    (hserved : ∃ b, s.phase = .started (.prover b)) :
    ∃ s', (retractAll P ts).run.run s = (.ok (), s') ∧ ∃ b, s'.phase = .started (.prover b) := by
  rcases retractAll_cases P s ts with ⟨hphase, _⟩ | ⟨r, s', hasked, hrun⟩
  · rcases hserved with ⟨b, hb⟩
    exact absurd hb (hphase _)
  · rcases hasked.exists_ok hserved fun hb =>
      ⟨(), hP.exists_retracts (hheld _ hb) rfl⟩ with ⟨_, rfl, hserved'⟩
    exact ⟨s', hrun, hserved'⟩

theorem launch (s : Session ω β) :
    (∃ b, ((Session.launch P).run s).2.phase = .started (.prover b)) ∧
      ((Session.launch P).run s).2.degraded = stub := by
  rcases hP.starts s.world with ⟨b, w, hstart⟩
  rcases hP.exists_tell s.globals (hP.start hstart) with ⟨b', w', htold⟩
  have hheld := hP.tell (hP.start hstart) htold
  have htold' : ((tell P s.globals).run.run b).run w = ((.ok (), b'), w') := htold
  have hrun : ((Session.launch P).run s).2 =
      { s with world := w', phase := .started (.prover b'), degraded := P.isStub b' } := by
    unfold Session.launch
    rw [StateT.run_bind, run_inWorld, pure_bind, hstart]
    simp only [StateT.run_bind, StateT.run_get, run_inWorld, pure_bind, htold']
    rfl
  rw [hrun]
  exact ⟨⟨b', rfl⟩, hP.isStub hheld⟩

theorem restart (s : Session ω β) :
    (∃ b, ((Session.restart P).run s).2.phase = .started (.prover b)) ∧
      ((Session.restart P).run s).2.degraded = stub := by
  rcases exists_restart P s with ⟨w, _, hrun⟩
  rw [hrun]
  exact hP.launch _

end Calls

section Serving

variable (hP : P.Answers H answer stub) (h : s.Serving H stub)
include hP h

theorem clearGlobals : ∃ s', (Session.clearGlobals P).run.run s = (.ok (), s') ∧
    s'.Serving H stub ∧ s'.globals = [] := by
  have hforgot := balanced_clearGlobals (P := P) h.toBalanced
  have hmoves := moves_clearGlobals (P := P) (Q := fun _ _ _ => False) (s := s)
  have hnow : s.Holds H ([] ++ s.globals) := by
    have hheld := h.mirrors.held
    rwa [assumptions_of_flatten s (by simp [h.scopes])] at hheld
  rcases clearGlobals_cases P s with ⟨hscopes, _⟩ | ⟨_, hclear⟩
  · exact absurd h.scopes hscopes
  · rcases hP.exists_retractAll (s := { s with globals := [] }) hnow h.served with
      ⟨s', hrun, hserved⟩
    have hbooks := sameBooks_retractAll (P := P) (s := { s with globals := [] }) s.globals
    rw [hrun] at hbooks
    rw [← hclear] at hrun
    rw [hrun] at hforgot hmoves
    exact ⟨s', hrun, ⟨atRest_clearGlobals hP.toTracks h.toAtRest hrun, hserved,
      hbooks.degraded.trans h.degraded, hP.family_of_moves hmoves h.family⟩, hforgot.2⟩

theorem setGlobals (ts : List Term) : ((Verifier.setGlobals P ts).run s).2.Serving H stub ∧
    ((Verifier.setGlobals P ts).run s).2.globals = ts := by
  rcases hP.clearGlobals h with ⟨s₁, hclear, hs₁, hnone⟩
  rcases hP.exists_assumes ts hs₁.mirrors hs₁.served with ⟨s₂, htold, hserved⟩
  rcases atRest_told hP.toTracks ts hs₁.toAtRest hnone with
    ⟨s', hrun, hrest, hglobals⟩ | ⟨e, s', hrun, _⟩
  · cases htold.symm.trans hrun
    have hend : ((Verifier.setGlobals P ts).run s).2 = s₂ := by
      rcases setGlobals_cases (P := P) ts h.usable with
        ⟨r, s₃, s₄, hclear', hcleared, r', s₅, htold', hend⟩
      cases hclear.symm.trans hclear'
      rcases hcleared with ⟨_, rfl⟩ | ⟨e, he, _⟩
      · cases htold.symm.trans htold'
        rcases hend with ⟨_, hend⟩ | ⟨e, he, _⟩
        · exact hend
        · cases he
      · cases he
    have hbooks := alike_assumes (P := P) (s := s₁) ts
    have hmoves := moves_assumes (P := P) (Q := fun _ _ _ => False) (s := s₁) ts
    rw [htold] at hbooks hmoves
    rw [hend]
    exact ⟨⟨hrest, hserved, hbooks.degraded.trans hs₁.degraded,
      hP.family_of_moves hmoves hs₁.family⟩, hglobals⟩
  · cases htold.symm.trans hrun

theorem query (vc : Term) : ∃ r s', (Verifier.query P vc).run.run s.pushed = (r, s') ∧
    r.toOption = answer (s.globals ++ vc.collectAxioms.items) vc ∧
    ∀ valid, r = .ok valid → s'.Mirrors H ∧ ∃ b, s'.phase = .started (.prover b) := by
  have hpushed : s.pushed.Mirrors H := by
    rcases h.served with ⟨b, hb⟩
    exact mirrors_pushed ⟨_, hb⟩ h.mirrors
  have hbooks : s.pushed.assumptions = s.globals := by
    rw [assumptions_pushed, assumptions_of_flatten s (by simp [h.scopes])]
  rcases hP.exists_assumes vc.collectAxioms.items (s := s.pushed) hpushed h.served with
    ⟨s₁, htold, hserved⟩
  rcases assumes_of_ok hP.toTracks vc.collectAxioms.items hpushed h.usable htold with
    ⟨hmirrors, hassumed, _⟩
  rw [hbooks] at hassumed
  rw [query_eq, run_bind_of_eq_ok htold]
  rcases isValid_cases P s₁ vc with ⟨e, hphase, _⟩ | ⟨r, s', hasked, hrun⟩
  · rcases hserved with ⟨b, hb⟩
    exact absurd hb (hphase _)
  · refine ⟨r, s', hrun, ?_, ?_⟩
    · rcases hserved with ⟨b, hb⟩
      cases hasked with
      | nobody hphase => cases hb.symm.trans hphase
      | answered hphase hyields | failed hphase hyields =>
        exact hP.answers (hassumed ▸ hmirrors.held _ hphase) hyields
    · rintro valid rfl
      have hmirrors' := mirrors_isValid hP.toTracks (t := vc) hmirrors
      rw [hrun] at hmirrors'
      refine ⟨hmirrors' (.inr ⟨valid, rfl⟩), ?_⟩
      rcases hserved with ⟨b, hb⟩
      cases hasked with
      | nobody hphase => cases hb.symm.trans hphase
      | answered => exact ⟨_, rfl⟩

/-- A check gets the answer for the global axioms and for what the condition depends
    on, and the session goes on serving. -/
theorem check (vc : Term) :
    ((Verifier.check P vc).run s).1 = answer (s.globals ++ vc.collectAxioms.items) vc ∧
      ((Verifier.check P vc).run s).2.Serving H stub ∧
      ((Verifier.check P vc).run s).2.globals = s.globals := by
  have hrest := atRest_check hP.toTracks vc h.toAtRest
  have hmoves := moves_check hP.toTracks (Q := fun _ _ _ => True) vc h.toAtRest
    fun _ _ _ => trivial
  rcases hP.query h vc with ⟨r, s₁, hquery, hanswer, hanswered⟩
  rcases scoped_cases (P := P) vc h.toBalanced with ⟨e, hphase, _⟩ |
    ⟨r', s₁', closed, s₂, _, hquery', hpop, hscoped, hbalanced, hglobals, hdegraded⟩
  · rcases h.served with ⟨b, hb⟩
    exact absurd hb (hphase _)
  cases hquery.symm.trans hquery'
  rcases check_cases (P := P) vc h.usable with ⟨r'', s', hscoped', hcheck⟩
  cases hscoped.symm.trans hscoped'
  cases r with
  | error e =>
    -- The prover is replaced if the query failed, whatever became of the scope.
    rcases hcheck with ⟨valid, hok, _⟩ | ⟨e', _, hcheck⟩
    · cases hok
    · rw [hcheck] at hrest hmoves ⊢
      have hrestart := hP.restart s₂
      exact ⟨hanswer, ⟨hrest.1, hrestart.1, hrestart.2, hP.family_of_moves hmoves h.family⟩,
        hrest.2⟩
  | ok valid =>
    rcases hanswered valid rfl with ⟨hmirrors, hserved⟩
    rcases pop_cases P s₁ with ⟨hnone, _⟩ | ⟨scope, scopes, hscopes, hretract⟩
    · -- The scope is still open, as many as before being so.
      have halike := alike_query (P := P) (s := s.pushed) vc
      rw [hquery] at halike
      have hdepth := halike.depth
      rw [hnone, pushed] at hdepth
      simp at hdepth
    · have hheld : (s₁.popped scopes).Holds H ((s₁.popped scopes).assumptions ++ scope) := by
        rw [← assumptions_of_scopes s₁ hscopes]
        exact hmirrors.held
      rcases hP.exists_retractAll hheld hserved with ⟨s₃, hrun, hserved₃⟩
      rw [← hretract] at hrun
      cases hrun.symm.trans hpop
      rcases hcheck with ⟨valid', hok, hcheck⟩ | ⟨e', he, _⟩
      · cases hok
        rw [hcheck] at hrest hmoves ⊢
        exact ⟨hanswer, ⟨hrest.1, hserved₃, hdegraded.trans h.degraded,
          hP.family_of_moves hmoves h.family⟩, hrest.2⟩
      · cases he

end Serving

end Prover.Answers

end Vouch
