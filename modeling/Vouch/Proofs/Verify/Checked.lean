import Vouch.Proofs.Verify.Recovery

/-!
# No Success without Proof

A session that has no prover answers every question with yes and says that it is
degraded. The next restart may take that back, but between two routines that are found
correct nothing is started.

## Main definitions

* `Session.Honest`: A session that is not degraded has a prover that proves.
* `ProverCall.Confirmed`: The calls by which routines are found correct.

## Theorems

* `Prover.confirmed_of_exitCode`: A run that ends with success has such calls in its log.
-/

namespace Vouch

open List ProverM

variable {ω β α : Type}

namespace Session

/-- If the session is in use and does not say that it is degraded, then it has a
    prover, and one that proves what it accepts. -/
def Honest (P : Prover ω β) (s : Session ω β) : Prop :=
  s.degraded = false → ∀ backend, s.phase = .started backend →
    ∃ b, backend = .prover b ∧ P.Genuine b

section Honesty

variable {P : Prover ω β} {s s' : Session ω β} {ts : List Term}

theorem Asked.honest {d : α} {q : ProverM ω β α} {r : Except ProverError α} (h : Asked d q s r s')
    (hs : Honest P s)
    (hq : ∀ {b r b' w}, P.Genuine b → Yields q b s.world r b' w → P.Genuine b') :
    Honest P s' := by
  have hdegraded := h.sameBooks.degraded
  intro hproves
  have hs := hs (hdegraded.symm.trans hproves)
  cases h with
  | nobody => exact hs
  | answered hphase hyields =>
    rcases hs _ hphase with ⟨b, hb, hgenuine⟩
    cases hb
    intro backend hbackend
    cases hbackend
    exact ⟨_, rfl, hq hgenuine hyields⟩
  | @failed b e b' w hphase hyields =>
    rcases hs _ hphase with ⟨b, hb, hgenuine⟩
    cases hb
    intro backend hbackend
    -- A session that failed is not in use, and otherwise the prover is kept.
    unfold afterError at hbackend
    cases he : e.isFatal with
    | true =>
      rw [he] at hbackend
      cases hbackend
    | false =>
      rw [he] at hbackend
      cases hbackend
      exact ⟨_, rfl, hq hgenuine hyields⟩

theorem honest_assume (t : Term) (hs : Honest P s) : Honest P ((assume P t).run.run s).2 := by
  rcases assume_cases P s t with ⟨e, _, hrun⟩ | ⟨s', hasked, hrun⟩ | ⟨e, s', hasked, hrun⟩
  · rw [hrun]
    exact hs
  · rw [hrun]
    have hasked := hasked.honest hs .assume
    rcases s' with ⟨w, phase, globals, scopes, degraded, counts⟩
    cases scopes <;> exact hasked
  · rw [hrun]
    exact hasked.honest hs .assume

theorem honest_isValid (t : Term) (hs : Honest P s) : Honest P ((isValid P t).run.run s).2 := by
  rcases isValid_cases P s t with ⟨e, _, hrun⟩ | ⟨r, s', hasked, hrun⟩
  · rw [hrun]
    exact hs
  · rw [hrun]
    exact hasked.honest hs .isValid

theorem honest_retractAll (ts : List Term) (hs : Honest P s) :
    Honest P ((retractAll P ts).run.run s).2 := by
  rcases retractAll_cases P s ts with ⟨_, hrun⟩ | ⟨r, s', hasked, hrun⟩
  · rw [hrun]
    exact hs
  · rw [hrun]
    exact hasked.honest hs .retracts

theorem honest_pop (hs : Honest P s) : Honest P ((pop P).run.run s).2 := by
  rcases pop_cases P s with ⟨_, hrun⟩ | ⟨scope, scopes, _, hrun⟩
  · rw [hrun]
    exact hs
  · rw [hrun]
    exact honest_retractAll (s := s.popped scopes) scope hs

theorem honest_clearGlobals (hs : Honest P s) : Honest P ((clearGlobals P).run.run s).2 := by
  rcases clearGlobals_cases P s with ⟨_, hrun⟩ | ⟨_, hrun⟩
  · rw [hrun]
    exact hs
  · rw [hrun]
    exact honest_retractAll (s := { s with globals := [] }) s.globals hs

theorem honest_launch : Honest P ((launch P).run s).2 := by
  have hlaunched := launched P s
  generalize ((launch P).run s).2 = s' at hlaunched ⊢
  cases hlaunched with
  | told hstart htell =>
    intro hproves backend hbackend
    cases hbackend
    exact ⟨_, rfl, .launched hproves⟩
  | alone =>
    intro hproves
    cases hproves

theorem honest_restart : Honest P ((restart P).run s).2 := by
  rcases exists_restart P s with ⟨w, _, hrun⟩
  rw [hrun]
  exact honest_launch

theorem honest_assumes (ts : List Term) (hs : Honest P s) :
    Honest P ((ts.forM (assume P)).run.run s).2 := by
  have hrel := assumes_related (R := fun s s' => Honest P s → Honest P s') (fun _ h => h)
    (fun h h' hs => h' (h hs)) (fun _ t => honest_assume t) ts s
  exact hrel hs

end Honesty

end Session

namespace ProverCall

/-- The calls by which a condition is found valid: what it depends on is assumed, a
    prover that proves what it accepts accepts the condition, and as much is
    retracted as was assumed. Each of the calls succeeds. -/
inductive Confirms (P : Prover ω β) (vc : Term) : List (ProverCall β) → Prop
  | intro {told retracted : List (ProverCall β)} {b : β} :
      Forall₂ (fun t call => ∃ b, call = assume b t (.ok ())) vc.collectAxioms.items told →
      P.Genuine b → retracted.length = told.length →
      (∀ call ∈ retracted, ∃ b, call = retract b (.ok ())) →
      Confirms P vc (told ++ isValid b vc (.ok true) :: retracted)

/-- The calls by which routines are found correct, with the reports on them. The
    conditions are confirmed one after the other, with other calls in between. -/
inductive Confirmed (P : Prover ω β) (style : ConditionStyle) (scope : Scope) :
    List Routine → List RoutineReport → List (ProverCall β) → Prop
  | nil (calls : List (ProverCall β)) : Confirmed P style scope [] [] calls
  | cons {r : Routine} {rs : List Routine} {reports : List RoutineReport}
      {before calls after : List (ProverCall β)} {vc : Term} {supply : Supply} :
      ((Verifier.condition style scope r).run supply).1 = .ok vc → Confirms P vc calls →
      Confirmed P style scope rs reports after →
      Confirmed P style scope (r :: rs)
        ({ name := r.name, verdict := .ok, location := r.location } :: reports)
        (before ++ calls ++ after)

variable {P : Prover ω β} {style : ConditionStyle} {scope : Scope} {rs : List Routine}
  {reports : List RoutineReport} {calls : List (ProverCall β)}

theorem Confirmed.after_others (h : Confirmed P style scope rs reports calls)
    (others : List (ProverCall β)) : Confirmed P style scope rs reports (others ++ calls) := by
  cases h with
  | nil => exact .nil _
  | cons hvc hconfirms hrest =>
    rw [← append_assoc, ← append_assoc]
    exact .cons hvc hconfirms hrest

theorem Confirmed.before_others (h : Confirmed P style scope rs reports calls)
    (others : List (ProverCall β)) : Confirmed P style scope rs reports (calls ++ others) := by
  induction h with
  | nil => exact .nil _
  | cons hvc hconfirms _ ih =>
    rw [append_assoc]
    exact .cons hvc hconfirms ih

theorem Confirms.mono {ω' : Type} {q : Prover ω' β} {vc : Term}
    (hP : ∀ b, P.Genuine b → q.Genuine b) (h : Confirms P vc calls) : Confirms q vc calls := by
  cases h with
  | intro htold hgenuine hlength hretracted =>
    exact .intro htold (hP _ hgenuine) hlength hretracted

theorem Confirmed.mono {ω' : Type} {q : Prover ω' β} (hP : ∀ b, P.Genuine b → q.Genuine b)
    (h : Confirmed P style scope rs reports calls) :
    Confirmed q style scope rs reports calls := by
  induction h with
  | nil => exact .nil _
  | cons hvc hconfirms _ ih => exact .cons hvc (hconfirms.mono hP) ih

end ProverCall

namespace Session

open ProverCall

section Logging

-- What calls that succeed leave in the log, if there is a prover to be called.
variable {p : Prover ω β} {s s' : Session (ω × List (ProverCall β)) β} {b : β}

theorem log_of_asked {d a : α} {m : ProverM ω β α} {note : β → Except ProverError α → ProverCall β}
    (h : Asked d (m.noted note) s (.ok a) s') (hphase : s.phase = .started (.prover b)) :
    (∃ b', s'.phase = .started (.prover b')) ∧
      s'.world.outside.2 = s.world.outside.2 ++ [note b (.ok a)] := by
  cases h with
  | nobody hnobody => cases hnobody.symm.trans hphase
  | answered hprover hyields =>
    cases hprover.symm.trans hphase
    exact ⟨⟨_, rfl⟩, Prover.log_of_yields_noted hyields⟩

theorem log_assume {t : Term} (hphase : s.phase = .started (.prover b))
    (h : (Session.assume p.observed t).run.run s = (.ok (), s')) :
    (∃ b', s'.phase = .started (.prover b')) ∧
      s'.world.outside.2 = s.world.outside.2 ++ [.assume b t (.ok ())] := by
  rcases assume_cases p.observed s t with ⟨e, _, hrun⟩ | ⟨s₁, hasked, hrun⟩ | ⟨e, s₁, _, hrun⟩
  · cases hrun.symm.trans h
  · cases hrun.symm.trans h
    rw [phase_record, world_record]
    exact log_of_asked hasked hphase
  · cases hrun.symm.trans h

theorem log_assumes (ts : List Term) : ∀ {s s' : Session (ω × List (ProverCall β)) β} {b : β},
    s.phase = .started (.prover b) →
    (ts.forM (Session.assume p.observed)).run.run s = (.ok (), s') →
    (∃ b', s'.phase = .started (.prover b')) ∧ ∃ calls,
      s'.world.outside.2 = s.world.outside.2 ++ calls ∧
      Forall₂ (fun t call => ∃ b, call = ProverCall.assume b t (.ok ())) ts calls := by
  induction ts with
  | nil =>
    intro s s' b hphase h
    cases h
    exact ⟨⟨b, hphase⟩, [], (append_nil _).symm, .nil⟩
  | cons t ts ih =>
    intro s s' b hphase h
    have hloop : (Session.assume p.observed t >>= fun _ =>
        ts.forM (Session.assume p.observed)).run.run s = (.ok (), s') := h
    rcases exists_of_bind_eq_ok hloop with ⟨u, s₁, hrun, hrest⟩
    rcases log_assume hphase hrun with ⟨⟨b₁, hphase₁⟩, hlog⟩
    rcases ih hphase₁ hrest with ⟨hphase', calls, hlog', hcalls⟩
    refine ⟨hphase', _ :: calls, ?_, .cons ⟨b, rfl⟩ hcalls⟩
    rw [hlog', hlog, append_assoc, singleton_append]

theorem log_isValid {t : Term} {valid : Bool} (hphase : s.phase = .started (.prover b))
    (h : (Session.isValid p.observed t).run.run s = (.ok valid, s')) :
    (∃ b', s'.phase = .started (.prover b')) ∧
      s'.world.outside.2 = s.world.outside.2 ++ [.isValid b t (.ok valid)] := by
  rcases isValid_cases p.observed s t with ⟨e, _, hrun⟩ | ⟨r, s₁, hasked, hrun⟩
  · cases hrun.symm.trans h
  · cases hrun.symm.trans h
    exact log_of_asked hasked hphase

theorem log_retracts : ∀ {ts : List Term} {b b' : β} {w w' : World (ω × List (ProverCall β))},
    Yields (ts.forM fun _ => p.observed.retract) b w (.ok ()) b' w' →
    ∃ calls, w'.outside.2 = w.outside.2 ++ calls ∧ calls.length = ts.length ∧
      ∀ call ∈ calls, ∃ b, call = ProverCall.retract b (.ok ()) := by
  intro ts
  induction ts with
  | nil =>
    intro b b' w w' h
    cases h
    exact ⟨[], by simp, rfl, by simp⟩
  | cons t ts ih =>
    intro b b' w w' h
    rcases Yields.of_bind_ok h with ⟨u, b₁, w₁, hfirst, hrest⟩
    rcases ih hrest with ⟨calls, hlog, hlength, hcalls⟩
    have hlog₁ := Prover.log_of_yields_noted hfirst
    refine ⟨.retract b (.ok u) :: calls, ?_, congrArg (· + 1) hlength, ?_⟩
    · rw [hlog, hlog₁, append_assoc, singleton_append]
    · intro call hmem
      rcases mem_cons.mp hmem with rfl | hmem
      · exact ⟨b, rfl⟩
      · exact hcalls call hmem

theorem log_pop {scope : List Term} (hphase : s.phase = .started (.prover b))
    (hscopes : s.scopes = [scope]) (h : (Session.pop p.observed).run.run s = (.ok (), s')) :
    ∃ calls, s'.world.outside.2 = s.world.outside.2 ++ calls ∧ calls.length = scope.length ∧
      ∀ call ∈ calls, ∃ b, call = ProverCall.retract b (.ok ()) := by
  rcases pop_cases p.observed s with ⟨hnone, _⟩ | ⟨first, others, hsplit, hpop⟩
  · cases hscopes.symm.trans hnone
  · cases hscopes.symm.trans hsplit
    rcases retractAll_cases p.observed (s.popped []) scope with ⟨hrefused, _⟩ |
      ⟨r, s₁, hasked, hrun⟩
    · exact absurd hphase (hrefused _)
    · cases (hpop.trans hrun).symm.trans h
      cases hasked with
      | nobody hnobody => cases hnobody.symm.trans hphase
      | answered _ hyields => exact log_retracts hyields

end Logging

end Session

namespace Verifier

open Session ProverCall

-- That sessions come to rest does not depend on what provers hold.
/-- Nothing is said about what a prover holds. -/
def anything : ω → β → List Term → Prop :=
  fun _ _ _ => True

theorem tracks_anything (P : Prover ω β) : P.Tracks anything :=
  ⟨fun _ => trivial, fun _ _ => trivial, fun _ _ => trivial, fun _ _ => trivial⟩

section Checks

variable {p : Prover ω β} {s s' : Session (ω × List (ProverCall β)) β} {P : Prover ω β} {vc : Term}

theorem scopes_of_query {s s' : Session ω β} {valid : Bool} {backend : Backend β}
    (hrest : AtRest anything s) (hphase : s.phase = .started backend)
    (h : (query P vc).run.run s.pushed = (.ok valid, s')) :
    s'.scopes = [vc.collectAxioms.items] := by
  have halike := alike_query (P := P) (s := s.pushed) vc
  rw [h] at halike
  rcases query_of_eq_ok h with ⟨s₁, htold, hanswer⟩
  have husable : s.pushed.phase.isFailed = false := hrest.usable
  rcases assumes_of_ok (tracks_anything P) _ (mirrors_pushed ⟨backend, hphase⟩ hrest.mirrors)
    husable htold with ⟨_, hbooks, _⟩
  have hsame : s'.assumptions = s₁.assumptions := by
    rcases isValid_cases P s₁ vc with ⟨e, _, hrun⟩ | ⟨r, s₂, hasked, hrun⟩
    · cases hrun.symm.trans hanswer
    · cases hrun.symm.trans hanswer
      exact hasked.sameBooks.assumptions
  -- The books list the global axioms and then the scope.
  have hdepth : s'.scopes.length = 1 := by
    rw [halike.depth]
    simp [pushed, hrest.scopes]
  rcases length_eq_one_iff.mp hdepth with ⟨scope, hscope⟩
  have hglobals : s'.globals = s.globals := halike.globals (by simp [pushed])
  rw [hbooks, assumptions_pushed, assumptions, assumptions, hscope, hrest.scopes, hglobals] at hsame
  rw [hscope]
  simpa using hsame

/-- A condition that was found valid was confirmed, unless the session is degraded,
    and the session is as degraded as it was. -/
theorem confirms_check (hrest : AtRest anything s) (hs : Honest p.observed s)
    (h : (check p.observed vc).run s = (some true, s')) :
    Honest p.observed s' ∧ s'.degraded = s.degraded ∧
      (s.degraded = false → ∃ calls, s'.world.outside.2 = s.world.outside.2 ++ calls ∧
        Confirms p.observed vc calls) := by
  rcases check_of_eq_some hrest h with ⟨backend, s₂, hphase, hquery, hpop, hdegraded⟩
  rcases query_of_eq_ok hquery with ⟨s₁, htold, hanswer⟩
  have hs₁ : Honest p.observed s₁ := by
    have htoldHonest := honest_assumes (s := s.pushed) vc.collectAxioms.items hs
    rw [htold] at htoldHonest
    exact htoldHonest
  refine ⟨?_, hdegraded, fun hproves => ?_⟩
  · have hs₂ := honest_isValid vc hs₁
    rw [hanswer] at hs₂
    have hs' := honest_pop hs₂
    rw [hpop] at hs'
    exact hs'
  · -- There is a prover, and each call that succeeded is in the log.
    rcases hs hproves backend hphase with ⟨b, rfl, _⟩
    rcases log_assumes _ (s := s.pushed) hphase htold with ⟨⟨b₁, hphase₁⟩, told, hlog₁, htoldCalls⟩
    rcases log_isValid hphase₁ hanswer with ⟨⟨b₂, hphase₂⟩, hlog₂⟩
    rcases log_pop hphase₂ (scopes_of_query hrest hphase hquery) hpop with
      ⟨retracted, hlog₃, hlength, hretracted⟩
    have halike := alike_assumes (P := p.observed) (s := s.pushed) vc.collectAxioms.items
    rw [htold] at halike
    rcases hs₁ (halike.degraded.trans hproves) _ hphase₁ with ⟨b, hb, hgenuine⟩
    cases hb
    refine ⟨told ++ .isValid b₁ vc (.ok true) :: retracted, ?_,
      .intro htoldCalls hgenuine (hlength.trans htoldCalls.length_eq) hretracted⟩
    rw [hlog₃, hlog₂, hlog₁]
    simp [pushed]

end Checks

/-- A verifier that has installed a program and is between two calls. -/
structure Ready (P : Prover ω β) (style : ConditionStyle) (prog : Program) (v : Verifier ω β) :
    Prop where
  prover : v.prover = P
  style : v.style = style
  scope : v.scope = .ofProgram prog
  atRest : v.session.AtRest anything
  honest : v.session.Honest P

section Verifiers

variable {P : Prover ω β} {style : ConditionStyle} {prog : Program}

theorem honest_setGlobals {s : Session ω β} (ts : List Term) (h : s.phase.isFailed = false)
    (hs : s.Honest P) : ((setGlobals P ts).run s).2.Honest P := by
  rcases setGlobals_cases ts h with ⟨r, s₁, s₂, hclear, hcleared, r', s₃, htold, hend⟩
  have hs₂ : s₂.Honest P := by
    rcases hcleared with ⟨_, rfl⟩ | ⟨e, _, rfl⟩
    · have hs₁ := honest_clearGlobals hs
      rw [hclear] at hs₁
      exact hs₁
    · exact honest_restart
  rcases hend with ⟨_, hend⟩ | ⟨e, _, hend⟩
  · have hs₃ := honest_assumes ts hs₂
    rw [htold] at hs₃
    rw [hend]
    exact hs₃
  · rw [hend]
    exact honest_restart

variable {v v' : Verifier ω β}

theorem ready_install (hkept : VerifierStep.Kept P anything (v, none))
    (hhonest : v.session.Honest P) (hstyle : v.style = style)
    (h : (install prog).run.run v = (.ok (), v')) : Ready P style prog v' := by
  have hkept' := hkept.install (tracks_anything P) prog
  simp only [VerifierStep.after, h] at hkept'
  rcases v.install_cases prog with ⟨e, supply, _, hrun⟩ | ⟨terms, supply, _, hrun⟩
  · cases hrun.symm.trans h
  · cases hrun.symm.trans h
    refine ⟨hkept'.prover, hstyle, rfl, hkept'.atRest, ?_⟩
    have hprover : v.prover = P := hkept.prover
    rw [hprover]
    exact honest_setGlobals (s := (v.restocked supply).session) terms hkept.atRest.usable hhonest

theorem ready_init {w : World ω} (h : (install prog).run.run (init P style w) = (.ok (), v)) :
    Ready P style prog v :=
  ready_install (VerifierStep.kept_init (tracks_anything P) style w) honest_launch rfl h

theorem run_of_eq_ok {report : Report} (h : (Verifier.run prog).run.run v = (.ok report, v')) :
    ∃ prepared v₁, prog.prepare = .ok prepared ∧ (install prog).run.run v = (.ok (), v₁) ∧
      (prepared.routines.mapM Verifier.report).run.run v₁ = (.ok report.routines, v') ∧
      report.degraded = v'.session.degraded := by
  rcases exists_of_bind_eq_ok h with ⟨prepared, v₁, hprocess, h⟩
  rcases exists_of_bind_eq_ok h with ⟨routines, v₂, hreports, h⟩
  cases h
  rcases v.process_cases prog with ⟨e, _, hrun⟩ | ⟨prepared', hprepared, hrun⟩
  · cases hrun.symm.trans hprocess
  · -- What was prepared is passed on once it is installed.
    rcases hinstall : (install prog).run.run v with ⟨r, v₃⟩
    rw [hinstall] at hrun
    cases r with
    | error e => cases hrun.symm.trans hprocess
    | ok u =>
      cases hrun.symm.trans hprocess
      exact ⟨prepared', v₃, hprepared, rfl, hreports, rfl⟩

theorem report_of_eq_ok {r : Routine} {report : RoutineReport}
    (h : (Verifier.report r).run.run v = (.ok report, v')) :
    ∃ vc supply, (condition v.style v.scope r).run v.session.world.supply = (.ok vc, supply) ∧
      report = { name := r.name, location := r.location
                 verdict := .ofAnswer ((check v.prover vc).run (v.restocked supply).session).1 } ∧
      v' = { v with session := ((check v.prover vc).run (v.restocked supply).session).2 } := by
  rcases exists_of_bind_eq_ok h with ⟨verdict, v₁, hverify, h⟩
  cases h
  rcases v.verify_cases r with ⟨e, supply, _, hrun⟩ | ⟨vc, supply, hvc, hrun⟩
  · cases hrun.symm.trans hverify
  · cases hrun.symm.trans hverify
    exact ⟨vc, supply, hvc, rfl, rfl⟩

theorem eq_of_ofAnswer {answer : Option Bool} (h : Verdict.ofAnswer answer = .ok) :
    answer = some true := by
  cases answer with
  | none => cases h
  | some valid =>
    cases valid with
    | true => rfl
    | false => cases h

end Verifiers

section Reports

variable {p : Prover ω β} {style : ConditionStyle} {prog : Program}
  {v v' : Verifier (ω × List (ProverCall β)) β}

theorem confirms_report {r : Routine} {report : RoutineReport} (hv : Ready p.observed style prog v)
    (h : (Verifier.report r).run.run v = (.ok report, v')) (hverdict : report.verdict = .ok) :
    Ready p.observed style prog v' ∧ v'.session.degraded = v.session.degraded ∧
      report = { name := r.name, verdict := .ok, location := r.location } ∧
      (v.session.degraded = false → ∃ vc supply calls, v'.log = v.log ++ calls ∧
        ((condition style (.ofProgram prog) r).run supply).1 = .ok vc ∧
        Confirms p.observed vc calls) := by
  rcases report_of_eq_ok h with ⟨vc, supply, hvc, rfl, rfl⟩
  have hanswer := eq_of_ofAnswer hverdict
  have hrest := atRest_restocked hv.atRest supply
  rcases hcheck : (check v.prover vc).run (v.restocked supply).session with ⟨answer, s'⟩
  rw [hcheck] at hanswer
  cases hanswer
  rw [hv.prover] at hcheck
  have hrest' := (atRest_check (tracks_anything p.observed) vc hrest).1
  rw [hcheck] at hrest'
  rcases confirms_check hrest hv.honest hcheck with ⟨hhonest, hdegraded, hconfirms⟩
  refine ⟨⟨hv.prover, hv.style, hv.scope, hrest', hhonest⟩, hdegraded, rfl, fun hproves => ?_⟩
  rcases hconfirms hproves with ⟨calls, hlog, hconfirms⟩
  refine ⟨vc, v.session.world.supply, calls, hlog, ?_, hconfirms⟩
  rw [← hv.style, ← hv.scope, hvc]

theorem confirmed_reports (rs : List Routine) :
    ∀ {v v' : Verifier (ω × List (ProverCall β)) β} {reports : List RoutineReport},
      Ready p.observed style prog v → (rs.mapM Verifier.report).run.run v = (.ok reports, v') →
      (∀ report ∈ reports, report.verdict = .ok) →
      v'.prover = p.observed ∧ v'.session.degraded = v.session.degraded ∧
      (v.session.degraded = false → ∃ calls, v'.log = v.log ++ calls ∧
        Confirmed p.observed style (.ofProgram prog) rs reports calls) := by
  induction rs with
  | nil =>
    intro v v' reports hv h _
    rw [mapM_nil] at h
    cases h
    exact ⟨hv.prover, rfl, fun _ => ⟨[], (append_nil _).symm, .nil []⟩⟩
  | cons r rs ih =>
    intro v v' reports hv h hverdicts
    rcases exists_of_mapM_eq_ok h with ⟨report, others, v₁, rfl, hfirst, hrest⟩
    rcases confirms_report hv hfirst (hverdicts _ (by simp)) with
      ⟨hv₁, hdegraded₁, hreport, hconfirms⟩
    rcases ih hv₁ hrest fun report hmem => hverdicts report (by simp [hmem]) with
      ⟨hprover, hdegraded, hconfirmed⟩
    refine ⟨hprover, hdegraded.trans hdegraded₁, fun hproves => ?_⟩
    -- The calls for the first routine come right before those for the others.
    rcases hconfirms hproves with ⟨vc, supply, calls, hlog, hvc, hconfirms⟩
    rcases hconfirmed (hdegraded₁.trans hproves) with ⟨after, hlog', hconfirmed⟩
    rw [hreport]
    refine ⟨[] ++ calls ++ after, ?_, .cons hvc hconfirms hconfirmed⟩
    rw [hlog', hlog, nil_append, append_assoc]

theorem log_install {w : World (ω × List (ProverCall β))}
    (h : (install prog).run.run (init p.observed style w) = (.ok (), v)) :
    ∃ calls, v.log = w.outside.2 ++ calls := by
  have hstart := Session.moves_start (P := p.observed) (s := { world := w })
    (Q := fun _ _ _ => True)
  rcases Prover.log_of_moves (Q := fun _ _ => True) hstart with ⟨started, hstarted, _⟩
  rcases VerifierStep.exists_asks_install (VerifierStep.kept_init p.tracks_observed style w) prog
    (.install prog) with ⟨installed, hinstalled, _⟩
  simp only [VerifierStep.after, h] at hinstalled
  refine ⟨started ++ installed, ?_⟩
  rw [hinstalled, ← append_assoc, ← hstarted]
  rfl

end Reports

end Verifier

namespace Workers

open Verifier ProverCall

/-- Every worker that was hired is ready. -/
def AllReady (P : Prover ω β) (style : ConditionStyle) (prog : Program) (w : Workers ω β) : Prop :=
  ∀ id v, (id, .ok v) ∈ w.staff → Ready P style prog v

section Staff

variable {P : Prover ω β} {style : ConditionStyle} {prog : Program} {w w' : Workers ω β}
  {v : Verifier ω β} {id : Nat}

theorem AllReady.keep (h : AllReady P style prog w) (hv : Ready P style prog v) :
    AllReady P style prog (w.keep id v (.ok v)) := by
  intro id' v' hmem
  rcases mem_cons.mp hmem with heq | hmem
  · cases heq
    exact hv
  · exact h id' v' (mem_filter.mp hmem).1

theorem ready_moveTo (hv : Ready P style prog v) (outside : ω) :
    Ready P style prog (v.moveTo outside) :=
  ⟨hv.prover, hv.style, hv.scope,
    ⟨⟨hv.atRest.scopes, hv.atRest.counts⟩, hv.atRest.usable,
      ⟨fun _ _ => trivial, hv.atRest.mirrors.unopened⟩⟩, hv.honest⟩

theorem hire_of_eq_ok (h : (hire P style prog id).run.run w = (.ok v, w')) :
    (∃ v₀, w.staff.lookup id = some (.ok v₀) ∧ v = v₀.moveTo w.outside ∧ w' = w) ∨
    ((install prog).run.run (init P style { outside := w.outside }) = (.ok (), v) ∧
      w' = w.keep id v (.ok v)) := by
  unfold hire at h
  rw [run_getThe_bind] at h
  rcases hlookup : w.staff.lookup id with _ | ⟨e | v₀⟩
  · simp only [hlookup] at h
    rcases hrun : (install prog).run.run (init P style { outside := w.outside }) with ⟨r, v₁⟩
    rw [hrun] at h
    cases r with
    | error e => cases h
    | ok u =>
      cases h
      exact Or.inr ⟨rfl, rfl⟩
  · simp only [hlookup] at h
    cases h
  · simp only [hlookup] at h
    cases h
    exact Or.inl ⟨v₀, rfl, rfl, rfl⟩

end Staff

section Confirming

variable {p : Prover ω β} {style : ConditionStyle} {prog : Program}
  {w w' : Workers (ω × List (ProverCall β)) β} {v : Verifier (ω × List (ProverCall β)) β} {id : Nat}

theorem ready_hire (hw : AllReady p.observed style prog w)
    (h : (hire p.observed style prog id).run.run w = (.ok v, w')) :
    Ready p.observed style prog v ∧ AllReady p.observed style prog w' ∧
      v.log = w'.outside.2 ∧ ∃ calls, w'.outside.2 = w.outside.2 ++ calls := by
  rcases hire_of_eq_ok h with ⟨v₀, hlookup, rfl, rfl⟩ | ⟨hinstall, rfl⟩
  · rcases lookup_eq_some_iff.mp hlookup with ⟨before, after, hstaff, _⟩
    have hv₀ : Ready p.observed style prog v₀ := hw id v₀ (by simp [hstaff])
    exact ⟨ready_moveTo hv₀ _, hw, rfl, [], (append_nil _).symm⟩
  · have hv := ready_init hinstall
    exact ⟨hv, hw.keep hv, rfl, log_install hinstall⟩

theorem confirms_check {r : Routine} {report : RoutineReport} {degraded : Bool}
    (hw : AllReady p.observed style prog w)
    (h : (check p.observed style prog id r).run.run w = (.ok (report, degraded), w'))
    (hverdict : report.verdict = .ok) (hproves : degraded = false) :
    AllReady p.observed style prog w' ∧
      report = { name := r.name, verdict := .ok, location := r.location } ∧
      ∃ vc supply before calls, w'.outside.2 = w.outside.2 ++ (before ++ calls) ∧
        ((condition style (.ofProgram prog) r).run supply).1 = .ok vc ∧
        Confirms p.observed vc calls := by
  rcases hhire : (hire p.observed style prog id).run.run w with ⟨hired, w₁⟩
  cases hired with
  | error e =>
    unfold check at h
    rw [ExceptT.run_bind, StateT.run_bind, hhire] at h
    cases h
  | ok v =>
    rcases hreport : (Verifier.report r).run.run v with ⟨outcome, v₁⟩
    rw [run_check_of_hired hhire hreport] at h
    cases outcome with
    | error e => cases h
    | ok report' =>
      cases h
      rcases ready_hire hw hhire with ⟨hv, hw₁, hlog, before, hbefore⟩
      rcases confirms_report hv hreport hverdict with ⟨hv₁, hdegraded, hreport, hconfirms⟩
      rcases hconfirms (hdegraded.symm.trans hproves) with
        ⟨vc, supply, calls, hlog₁, hvc, hconfirms⟩
      refine ⟨hw₁.keep hv₁, hreport, vc, supply, before, calls, ?_, hvc, hconfirms⟩
      rw [← append_assoc, ← hbefore, ← hlog]
      exact hlog₁

theorem confirmed_checks (assign : Nat → Nat) (tasks : List (Routine × Nat)) :
    ∀ {w w' : Workers (ω × List (ProverCall β)) β} {reports : List (RoutineReport × Bool)},
      AllReady p.observed style prog w →
      (tasks.mapM fun task => check p.observed style prog (assign task.2) task.1).run.run w =
        (.ok reports, w') →
      (∀ report ∈ reports, report.1.verdict = .ok ∧ report.2 = false) →
      ∃ calls, w'.outside.2 = w.outside.2 ++ calls ∧
        Confirmed p.observed style (.ofProgram prog) (tasks.map Prod.fst) (reports.map Prod.fst)
          calls := by
  induction tasks with
  | nil =>
    intro w w' reports _ h _
    rw [mapM_nil] at h
    cases h
    exact ⟨[], (append_nil _).symm, .nil []⟩
  | cons task tasks ih =>
    intro w w' reports hw h hall
    rcases Session.exists_of_mapM_eq_ok h with ⟨report, others, w₁, rfl, hfirst, hrest⟩
    rcases hall report (by simp) with ⟨hverdict, hproves⟩
    rcases confirms_check hw hfirst hverdict hproves with
      ⟨hw₁, hreport, vc, supply, before, calls, hlog, hvc, hconfirms⟩
    rcases ih hw₁ hrest fun report hmem => hall report (by simp [hmem]) with
      ⟨after, hlog', hconfirmed⟩
    -- A worker may have been hired for the routine, and what that took comes first.
    rw [map_cons, map_cons, hreport]
    refine ⟨before ++ calls ++ after, ?_, .cons hvc hconfirms hconfirmed⟩
    rw [hlog', hlog]
    simp only [append_assoc]

end Confirming

end Workers

theorem Report.exitCode_eq_zero {report : Report} (h : report.exitCode = 0) :
    report.degraded = false ∧ ∀ r ∈ report.routines, r.verdict = .ok := by
  unfold exitCode at h
  by_cases hbad : (report.degraded || !report.allOk) = true
  · rw [if_pos hbad] at h
    cases h
  · simpa [allOk] using hbad

namespace Prover

open Verifier ProverCall

variable {p : Prover ω β} {style : ConditionStyle} {prog : Program} {outside outside' : ω}
  {report : Report} {calls : List (ProverCall β)}

theorem confirmed_verifyAlone
    (h : (p.observed.verifyAlone style prog).run (outside, []) = (.ok report, (outside', calls)))
    (hexit : report.exitCode = 0) :
    ∃ prepared, prog.prepare = .ok prepared ∧
      Confirmed p.observed style (.ofProgram prog) prepared.routines report.routines calls := by
  rcases Report.exitCode_eq_zero hexit with ⟨hproves, hverdicts⟩
  have hend : (p.observed.verifyAlone style prog).run (outside, []) =
      (((Verifier.run prog).run.run (init p.observed style { outside := (outside, []) })).1,
        ((Verifier.run prog).run.run
          (init p.observed style { outside := (outside, []) })).2.terminate.session.world.outside) :=
    rfl
  rcases hrun : (Verifier.run prog).run.run
    (init p.observed style { outside := (outside, []) }) with ⟨r, v⟩
  rw [hend, hrun] at h
  have hreport := congrArg Prod.fst h
  have hlog : v.terminate.log = calls := congrArg (fun done => done.2.2) h
  cases hreport
  rcases run_of_eq_ok hrun with ⟨prepared, v₁, hprepared, hinstall, hreports, hdegraded⟩
  rcases confirmed_reports prepared.routines (ready_init hinstall) hreports hverdicts with
    ⟨hprover, hsame, hconfirmed⟩
  rcases hconfirmed (hsame.symm.trans (hdegraded.symm.trans hproves)) with
    ⟨checked, hchecked, hconfirmed⟩
  -- Before the first check the verifier was set up, and after the last it is stopped.
  have hstopped : p.observed.Moves (fun _ _ _ => True) v.session.world
      v.terminate.session.world := by
    rw [← hprover]
    exact Session.moves_terminate
  rcases log_of_moves (Q := fun _ _ => True) hstopped with ⟨stopped, hstopped, _⟩
  refine ⟨prepared, hprepared, ?_⟩
  have hcalls : calls = v₁.log ++ checked ++ stopped := by
    rw [← hlog, ← hchecked]
    exact hstopped
  rw [hcalls]
  exact (hconfirmed.after_others v₁.log).before_others stopped

theorem confirmed_verifyShared {assign : Nat → Nat}
    (h : (p.observed.verifyShared style assign prog).run (outside, []) =
      (.ok report, (outside', calls)))
    (hexit : report.exitCode = 0) :
    ∃ prepared, prog.prepare = .ok prepared ∧
      Confirmed p.observed style (.ofProgram prog) prepared.routines report.routines calls := by
  rcases Report.exitCode_eq_zero hexit with ⟨hproves, hverdicts⟩
  rcases verifyShared_cases assign prog with ⟨e, hfault⟩ | ⟨prepared, hprepared, hshared⟩
  · rw [hfault] at h
    cases h
  · rw [hshared] at h
    refine ⟨prepared, hprepared, ?_⟩
    rcases hwork : (p.observed.sharedWork style assign prog prepared.routines).run.run
      { outside := (outside, []) } with ⟨r, w⟩
    rw [hwork] at h
    have hreport := congrArg Prod.fst h
    have hlog : w.outside.2 = calls := congrArg (fun done => done.2.2) h
    cases r with
    | error e => cases hreport
    | ok reports =>
      cases hreport
      -- No worker is degraded if the whole run is not.
      have hall : ∀ report ∈ reports, report.1.verdict = .ok ∧ report.2 = false := by
        intro report hmem
        refine ⟨hverdicts report.1 (mem_map_of_mem hmem), ?_⟩
        have hnone := any_eq_false.mp hproves report hmem
        simpa using hnone
      rcases Workers.confirmed_checks assign prepared.routines.zipIdx
        (w := { outside := (outside, []) }) (fun id v hmem => by cases hmem) hwork hall with
        ⟨checked, hchecked, hconfirmed⟩
      rw [zipIdx_map_fst] at hconfirmed
      rw [← hlog, hchecked]
      exact hconfirmed.after_others []

/-- **No success without proof.** If a program is checked, by any number of workers
    and whoever gets which routine, and the run ends with success, then its routines
    were found correct one by one by a prover that proves what it accepts: it was
    told what the condition depends on, it accepted the condition, and everything
    was retracted again, all without a failure. -/
theorem confirmed_of_exitCode (p : Prover ω β) (style : ConditionStyle) (jobs : Nat)
    (assign : Nat → Nat) (prog : Program) (outside outside' : ω) (report : Report)
    (h : (p.verifyProgram style jobs assign prog).run outside = (.ok report, outside'))
    (hexit : report.exitCode = 0) :
    ∃ prepared calls, prog.prepare = .ok prepared ∧
      (p.observed.verifyProgram style jobs assign prog).run (outside, []) =
        (.ok report, (outside', calls)) ∧
      Confirmed p style (.ofProgram prog) prepared.routines report.routines calls := by
  have hvia := verifyProgram_via p.covers_observed style jobs assign prog (outside, [])
  rcases hrun : (p.observed.verifyProgram style jobs assign prog).run (outside, []) with
    ⟨r, end', calls⟩
  rw [hrun, h] at hvia
  cases hvia
  have hconfirmed : ∃ prepared, prog.prepare = .ok prepared ∧
      Confirmed p.observed style (.ofProgram prog) prepared.routines report.routines calls := by
    unfold verifyProgram at hrun
    by_cases hjobs : jobs ≤ 1
    · rw [if_pos hjobs] at hrun
      exact confirmed_verifyAlone hrun hexit
    · rw [if_neg hjobs] at hrun
      exact confirmed_verifyShared hrun hexit
  rcases hconfirmed with ⟨prepared, hprepared, hconfirmed⟩
  exact ⟨prepared, calls, hprepared, rfl, hconfirmed.mono fun _ => p.covers_observed.genuine⟩

/-- Two routines that rely on an axiom. -/
def relying : Program where
  globals := [{ name := "n", ty := .int }]
  axioms := [.binary .le (.int 0) (.var "n")]
  routines := [
    { name := "r", body := [{ action := .assert (.binary .le (.int 0) (.var "n")) }] },
    { name := "s", body := [.assign "n" (.binary .add (.var "n") (.int 1)),
        { action := .assert (.binary .lt (.int 0) (.var "n")) }] }]

/-- The first prover ends as soon as it is told something. -/
def faltering : Script :=
  { assumes := [some (.exited (some 1))], queries := [.answers true, .answers true] }

theorem exists_verifyProgram_relying : ∃ report outside',
    ((Prover.scripted false).verifyProgram { method := .sp } 2 id relying).run faltering =
      (.ok report, outside') ∧ report.exitCode = 0 ∧ report.routines.length = 2 := by
  have hok : (((Prover.scripted false).verifyProgram { method := .sp } 2 id relying).run
      faltering).1.toOption.any (fun report => report.exitCode == 0 && report.routines.length == 2) =
      true := by
    decide +kernel
  rcases hrun : ((Prover.scripted false).verifyProgram { method := .sp } 2 id relying).run
    faltering with ⟨r, outside'⟩
  rw [hrun] at hok
  cases r with
  | error e => cases hok
  | ok report =>
    refine ⟨report, outside', rfl, ?_⟩
    simpa [Except.toOption] using hok

theorem confirmed_of_exitCode_relying : ∃ report outside' prepared calls,
    ((Prover.scripted false).verifyProgram { method := .sp } 2 id relying).run faltering =
      (.ok report, outside') ∧ report.exitCode = 0 ∧ report.routines.length = 2 ∧
    relying.prepare = .ok prepared ∧
    ((Prover.scripted false).observed.verifyProgram { method := .sp } 2 id relying).run
      (faltering, []) = (.ok report, (outside', calls)) ∧
    Confirmed (Prover.scripted false) { method := .sp } (.ofProgram relying) prepared.routines
      report.routines calls := by
  rcases exists_verifyProgram_relying with ⟨report, outside', hrun, hexit, hlength⟩
  rcases confirmed_of_exitCode (Prover.scripted false) { method := .sp } 2 id relying faltering
    outside' report hrun hexit with ⟨prepared, calls, hprepared, hobserved, hconfirmed⟩
  exact ⟨report, outside', prepared, calls, hrun, hexit, hlength, hprepared, hobserved, hconfirmed⟩

end Prover

end Vouch
