import Vouch.Proofs.Verify.Answers
import Vouch.Proofs.Verify.Standalone

/-!
# Routines Do Not Disturb Each Other

The verdict on a routine is the one that it gets on its own: not the other routines and
their order, not what they made of the prover, and not who got which.

## Main definitions

* `Settles`: A report has the verdict that the routine gets on its own.
* `Verifier.Installed`: A verifier has a prover and installed the program.

## Theorems

* `verdicts_of_neighbours`: Other routines do not change a verdict.
* `reports_of_jobs`: Nor does the number of workers.
-/

namespace Vouch

open List ProverM Session

variable {ω β : Type}

/-- The report is about the routine and has the verdict that it gets on its own. -/
structure Settles (answer : List Term → Term → Option Bool) (style : ConditionStyle) (p : Program)
    (r : Routine) (report : RoutineReport) : Prop where
  name : report.name = r.name
  verdict : standalone answer style p r = .ok report.verdict

namespace Verifier

/-- The verifier is between two calls and has a prover. -/
structure Serves (P : Prover ω β) (H : ω → β → List Term → Prop) (stub : Bool)
    (style : ConditionStyle) (v : Verifier ω β) : Prop where
  prover : v.prover = P
  style : v.style = style
  serving : v.session.Serving H stub

/-- It has also installed the program. -/
structure Installed (P : Prover ω β) (H : ω → β → List Term → Prop) (stub : Bool)
    (style : ConditionStyle) (p : Program) (v : Verifier ω β) : Prop
    extends Serves P H stub style v where
  scope : v.scope = .ofProgram p
  axioms : ∃ supply supply', supply.family = 0 ∧
    p.axiomTerms.run supply = (.ok v.session.globals, supply')

variable {P : Prover ω β} {H : ω → β → List Term → Prop}
  {answer : List Term → Term → Option Bool} {stub : Bool} {style : ConditionStyle} {p : Program}
  {v v' : Verifier ω β}

theorem serving_restocked (h : v.session.Serving H stub) {supply : Supply}
    (hfamily : supply.family = 0) : (v.restocked supply).session.Serving H stub :=
  ⟨atRest_restocked h.toAtRest supply, h.served, h.degraded, hfamily⟩

section Steps

variable (hP : P.Answers H answer stub)
include hP

theorem serves_init (style : ConditionStyle) (o : ω) :
    Serves P H stub style (init P style { outside := o }) := by
  have hkept := VerifierStep.kept_init hP.toTracks style { outside := o }
  have hlaunch := hP.launch { world := { outside := o } }
  have hmoves := moves_launch (P := P) (Q := fun _ _ _ => False)
    (s := { world := { outside := o } })
  exact ⟨rfl, rfl, hkept.atRest, hlaunch.1, hlaunch.2, hP.family_of_moves hmoves rfl⟩

theorem Serves.install (hv : v.Serves P H stub style)
    (h : (install p).run.run v = (.ok (), v')) : v'.Installed P H stub style p := by
  rcases v.install_cases p with ⟨e, supply, _, hrun⟩ | ⟨terms, supply, hterms, hrun⟩
  · cases hrun.symm.trans h
  · have hfamily : supply.family = 0 := by
      have hleft := (p.advances_axiomTerms v.session.world.supply).family
      rw [hterms] at hleft
      exact hleft.trans hv.serving.family
    cases hrun.symm.trans h
    have hset := hP.setGlobals (serving_restocked hv.serving hfamily) terms
    rw [← hv.prover] at hset
    exact ⟨⟨hv.prover, hv.style, hset.1⟩, rfl, v.session.world.supply, supply,
      hv.serving.family, by rw [hset.2]; exact hterms⟩

variable (hanswer : Impartial answer)
include hanswer

theorem Installed.report {r r' : Routine} {report : RoutineReport}
    (hv : v.Installed P H stub style p) (hlegible : p.Legible r)
    (hr : (Scope.ofProgram p).prepare r = .ok r')
    (h : (Verifier.report r').run.run v = (.ok report, v')) :
    v'.Installed P H stub style p ∧ Settles answer style p r report := by
  rcases report_of_eq_ok h with ⟨vc, supply, hvc, rfl, rfl⟩
  rw [hv.style, hv.scope] at hvc
  rcases hv.axioms with ⟨start, start', hstart, hterms⟩
  have hfamily : supply.family = 0 := by
    have hleft := (advances_condition style (.ofProgram p) r' v.session.world.supply).family
    rw [hvc] at hleft
    exact hleft.trans hv.serving.family
  have hcheck := hP.check (serving_restocked hv.serving hfamily) vc
  rw [← hv.prover] at hcheck
  refine ⟨⟨⟨hv.prover, hv.style, hcheck.2.1⟩, hv.scope, start, start', hstart, ?_⟩, ?_, ?_⟩
  · rw [hcheck.2.2]
    exact hterms
  · rw [Scope.eq_of_prepare hr]
  · rw [hcheck.1]
    exact hlegible.standalone_eq hanswer hr hstart hv.serving.family hterms hvc

theorem Installed.reports {rs rs' : List Routine}
    (hrs : Forall₂ (fun r r' => (Scope.ofProgram p).prepare r = .ok r') rs rs') :
    (∀ r ∈ rs, p.Legible r) → ∀ {v v' : Verifier ω β} {reports : List RoutineReport},
    v.Installed P H stub style p →
    (rs'.mapM Verifier.report).run.run v = (.ok reports, v') →
    v'.Installed P H stub style p ∧ Forall₂ (Settles answer style p) rs reports := by
  induction hrs with
  | nil =>
    intro _ v v' reports hv h
    rw [mapM_nil] at h
    cases h
    exact ⟨hv, .nil⟩
  | cons hr _ ih =>
    intro hlegible v v' reports hv h
    rcases exists_of_mapM_eq_ok h with ⟨report, others, v₁, rfl, hfirst, hrest⟩
    rcases hv.report hP hanswer (hlegible _ mem_cons_self) hr hfirst with ⟨hv₁, hsettles⟩
    rcases ih ((forall_mem_cons.mp hlegible).2) hv₁ hrest with
      ⟨hv', hothers⟩
    exact ⟨hv', .cons hsettles hothers⟩

theorem settles_run {report : Report} (hv : v.Serves P H stub style)
    (hlegible : ∀ r ∈ p.routines, p.Legible r)
    (h : (Verifier.run p).run.run v = (.ok report, v')) :
    Forall₂ (Settles answer style p) p.routines report.routines ∧ report.degraded = stub := by
  rcases run_of_eq_ok h with ⟨prepared, v₁, hprepared, hinstall, hreports, hdegraded⟩
  rcases bind_eq_ok_iff.mp hprepared with ⟨rs', hrs, heq⟩
  cases heq
  rcases (hv.install hP hinstall).reports hP hanswer (forall₂_of_mapM hrs) hlegible hreports with
    ⟨hv', hsettles⟩
  exact ⟨hsettles, hdegraded.trans hv'.serving.degraded⟩

end Steps

end Verifier

namespace Workers

open Verifier

/-- Every worker that was hired has installed the program. -/
def AllInstalled (P : Prover ω β) (H : β → List Term → Prop) (stub : Bool)
    (style : ConditionStyle) (p : Program) (w : Workers ω β) : Prop :=
  ∀ id v, (id, .ok v) ∈ w.staff → v.Installed P (fun _ => H) stub style p

variable {P : Prover ω β} {H : β → List Term → Prop} {answer : List Term → Term → Option Bool}
  {stub : Bool} {style : ConditionStyle} {p : Program} {w w' : Workers ω β} {v : Verifier ω β}
  {id : Nat}

theorem AllInstalled.keep (h : w.AllInstalled P H stub style p)
    (hv : v.Installed P (fun _ => H) stub style p) :
    (w.keep id v (.ok v)).AllInstalled P H stub style p := by
  intro id' v' hmem
  rcases mem_cons.mp hmem with heq | hmem
  · cases heq
    exact hv
  · exact h id' v' (mem_filter.mp hmem).1

theorem installed_moveTo (hv : v.Installed P (fun _ => H) stub style p) (outside : ω) :
    (v.moveTo outside).Installed P (fun _ => H) stub style p := by
  have hmirrors := hv.serving.mirrors
  have hatRest : (v.moveTo outside).session.AtRest fun _ => H :=
    ⟨⟨hv.serving.scopes, hv.serving.counts⟩, hv.serving.usable,
      ⟨hmirrors.held, hmirrors.unopened⟩⟩
  exact ⟨⟨hv.prover, hv.style, hatRest, hv.serving.served, hv.serving.degraded,
    hv.serving.family⟩, hv.scope, hv.axioms⟩

section Checks

variable (hP : P.Answers (fun _ => H) answer stub)
include hP

theorem AllInstalled.hire (hw : w.AllInstalled P H stub style p)
    (h : (hire P style p id).run.run w = (.ok v, w')) :
    v.Installed P (fun _ => H) stub style p ∧ w'.AllInstalled P H stub style p := by
  rcases hire_of_eq_ok h with ⟨v₀, hlookup, rfl, rfl⟩ | ⟨hinstall, rfl⟩
  · rcases lookup_eq_some_iff.mp hlookup with ⟨before, after, hstaff, _⟩
    have hv₀ : v₀.Installed P (fun _ => H) stub style p := hw id v₀ (by simp [hstaff])
    exact ⟨installed_moveTo hv₀ _, hw⟩
  · have hv := (serves_init hP style w.outside).install hP hinstall
    exact ⟨hv, hw.keep hv⟩

variable (hanswer : Impartial answer)
include hanswer

theorem AllInstalled.check {r r' : Routine} {report : RoutineReport} {degraded : Bool}
    (hw : w.AllInstalled P H stub style p) (hlegible : p.Legible r)
    (hr : (Scope.ofProgram p).prepare r = .ok r')
    (h : (check P style p id r').run.run w = (.ok (report, degraded), w')) :
    w'.AllInstalled P H stub style p ∧ Settles answer style p r report ∧ degraded = stub := by
  rcases hhire : (Workers.hire P style p id).run.run w with ⟨hired, w₁⟩
  cases hired with
  | error e =>
    unfold Workers.check at h
    rw [ExceptT.run_bind, StateT.run_bind, hhire] at h
    cases h
  | ok v =>
    rcases hreport : (Verifier.report r').run.run v with ⟨outcome, v₁⟩
    rw [run_check_of_hired hhire hreport] at h
    cases outcome with
    | error e => cases h
    | ok report' =>
      cases h
      rcases hw.hire hP hhire with ⟨hv, hw₁⟩
      rcases hv.report hP hanswer hlegible hr hreport with ⟨hv₁, hsettles⟩
      exact ⟨hw₁.keep hv₁, hsettles, hv₁.serving.degraded⟩

theorem AllInstalled.checks (assign : Nat → Nat) {rs rs' : List Routine}
    (hrs : Forall₂ (fun r r' => (Scope.ofProgram p).prepare r = .ok r') rs rs') :
    (∀ r ∈ rs, p.Legible r) → ∀ (n : Nat) {w w' : Workers ω β}
      {reports : List (RoutineReport × Bool)}, w.AllInstalled P H stub style p →
    ((rs'.zipIdx n).mapM fun task => Workers.check P style p (assign task.2) task.1).run.run w =
      (.ok reports, w') →
    Forall₂ (fun r report => Settles answer style p r report.1 ∧ report.2 = stub) rs
      reports := by
  induction hrs with
  | nil =>
    intro _ n w w' reports _ h
    rw [zipIdx_nil, mapM_nil] at h
    cases h
    exact .nil
  | cons hr _ ih =>
    intro hlegible n w w' reports hw h
    rw [zipIdx_cons] at h
    rcases exists_of_mapM_eq_ok h with ⟨report, others, w₁, rfl, hfirst, hrest⟩
    rcases hw.check hP hanswer (hlegible _ mem_cons_self) hr hfirst with
      ⟨hw₁, hsettles, hdegraded⟩
    exact .cons ⟨hsettles, hdegraded⟩
      (ih ((forall_mem_cons.mp hlegible).2) (n + 1) hw₁ hrest)

omit hP hanswer in
theorem any_degraded {rs : List Routine} {reports : List (RoutineReport × Bool)}
    (h : Forall₂ (fun _ report => report.2 = stub) rs reports) :
    reports.any (·.2) = (!rs.isEmpty && stub) := by
  induction h with
  | nil => rfl
  | cons hstub _ ih =>
    rw [any_cons, hstub, ih]
    cases stub <;> simp

theorem settles_verifyShared {assign : Nat → Nat} {o o' : ω} {report : Report}
    (hlegible : ∀ r ∈ p.routines, p.Legible r)
    (h : (P.verifyShared style assign p).run o = (.ok report, o')) :
    Forall₂ (Settles answer style p) p.routines report.routines ∧
      report.degraded = (!p.routines.isEmpty && stub) := by
  rcases Prover.verifyShared_cases assign p with ⟨e, hfault⟩ | ⟨prepared, hprepared, hshared⟩
  · rw [hfault] at h
    cases h
  · rw [hshared] at h
    rcases bind_eq_ok_iff.mp hprepared with ⟨rs', hrs, heq⟩
    cases heq
    rcases hwork : (P.sharedWork style assign p rs').run.run { outside := o } with ⟨r, w⟩
    rw [hwork] at h
    cases r with
    | error e => cases h
    | ok reports =>
      cases h
      have hsettled := AllInstalled.checks hP hanswer assign (forall₂_of_mapM hrs) hlegible 0
        (w := { outside := o }) (fun id v hmem => by cases hmem) hwork
      refine ⟨forall₂_map_right_iff.mpr (hsettled.imp fun _ _ h => h.1), ?_⟩
      exact any_degraded (hsettled.imp fun _ _ h => h.2)

end Checks

end Workers

/-! ### The verdicts and the exit code -/

section Reports

variable {answer : List Term → Term → Option Bool} {style : ConditionStyle} {p : Program}
  {rs : List Routine} {reports : List RoutineReport}

/-- The verdict that a routine gets on its own, if it gets one. -/
def settled (answer : List Term → Term → Option Bool) (style : ConditionStyle) (p : Program)
    (r : Routine) : Verdict :=
  (standalone answer style p r).toOption.getD .unknown

theorem map_of_settles (h : Forall₂ (Settles answer style p) rs reports) :
    reports.map (fun x => (x.name, x.verdict)) =
      rs.map fun r => (r.name, settled answer style p r) := by
  induction h with
  | nil => rfl
  | cons h _ ih =>
    rw [map_cons, map_cons, ih, h.name, settled, h.verdict]
    rfl

theorem Report.exitCode_congr {report report' : Report}
    (h : report.routines.map (·.verdict) = report'.routines.map (·.verdict))
    (hdegraded : report.degraded = report'.degraded) : report.exitCode = report'.exitCode := by
  have hall : ∀ x : Report, x.allOk = (x.routines.map (·.verdict)).all (· = .ok) := by
    intro x
    rw [all_map]
    rfl
  rw [exitCode, exitCode, hall, hall, h, hdegraded]

end Reports

/-! ### Provers that answer -/

theorem Prover.answers_stub (ω : Type) :
    (Prover.stub ω).Answers (fun _ _ _ => True) (fun _ _ => some true) true where
  start _ := trivial
  assume _ _ := trivial
  retract _ _ := trivial
  isValid _ _ := trivial
  starts w := ⟨_, _, rfl⟩
  assumes _ _ := ⟨_, _, rfl⟩
  retracts _ := ⟨_, _, rfl⟩
  answers _ h := by
    cases h
    rfl
  isStub _ := rfl
  family h := by
    cases h with
    | start h | assume h | retract h | isValid _ h => cases h; rfl
    | terminate => rfl

/-- A prover that judges a question by its operator and by how many assumptions it
    holds, and ends if it has no answer. -/
def Prover.judging (judge : Nat → Op → Option Bool) : Prover Unit (List Term) where
  start := return .ok []
  assume t := modify (· ++ [t])
  retract := modify List.dropLast
  isValid t := do
    (judge (← getThe (List Term)).length t.op).elim (throw (.exited none)) pure
  terminate _ := return
  isStub _ := false

theorem Prover.judging_of_yields {judge : Nat → Op → Option Bool} {ts b : List Term} {t : Term}
    {w w' : World Unit} {r : Except ProverError Bool}
    (h : Yields ((judging judge).isValid t) ts w r b w') :
    r.toOption = judge ts.length t.op ∧ b = ts ∧ w' = w := by
  have hrun : ((((judging judge).isValid t).run.run ts).run w) =
      ((((judge ts.length t.op).elim (throw (.exited none)) pure : ProverM Unit (List Term) Bool)
        ).run.run ts).run w := rfl
  have h : ((((judging judge).isValid t).run.run ts).run w) = ((r, b), w') := h
  rw [hrun] at h
  cases hjudge : judge ts.length t.op with
  | none | some valid =>
    rw [hjudge] at h
    cases h
    exact ⟨rfl, rfl, rfl⟩

theorem Prover.answers_judging (judge : Nat → Op → Option Bool) :
    (judging judge).Answers (fun _ b ts => b = ts) (fun ts t => judge ts.length t.op) false where
  start h := by
    cases h
    rfl
  assume hheld h := by
    cases h
    rw [hheld]
  retract hheld h := by
    cases h
    rw [hheld, dropLast_concat]
  isValid hheld h := (judging_of_yields h).2.1.trans hheld
  starts w := ⟨_, _, rfl⟩
  assumes _ _ := ⟨_, _, rfl⟩
  retracts _ := ⟨_, _, rfl⟩
  answers hheld h := by
    cases hheld
    exact (judging_of_yields h).1
  isStub _ := rfl
  family h := by
    cases h with
    | start h | assume h | retract h => cases h; rfl
    | isValid _ h => rw [(judging_of_yields h).2.2]
    | terminate => rfl

theorem impartial_judging (judge : Nat → Op → Option Bool) :
    Impartial fun ts t => judge ts.length t.op := by
  rintro ρ ts ts' t _ hts ⟨φ, _, rfl⟩
  simp only [hts.length_eq, Term.op_relabel]

/-- Declarations, with an axiom. -/
def flagged : Program where
  globals := [{ name := "flag", ty := .bool }, { name := "n", ty := .int }]
  axioms := [.binary .le (.int 0) (.var "n")]

/-- A routine whose condition is a conjunction. -/
def breaking : Routine where
  name := "breaking"
  body := [.havoc ["flag"], .assert (.binary .and (.var "flag") (.binary .lt (.int 0) (.var "n")))]

/-- A routine whose condition is an implication. -/
def lasting : Routine where
  name := "lasting"
  body := [.havoc ["flag"], .assume (.var "flag"), .assert (.binary .lt (.int 0) (.var "n"))]

/-- Conjunctions have no answer, and others a good one if one thing is assumed. -/
def touchy (held : Nat) (op : Op) : Option Bool :=
  if op = .and then none else some (held == 1)

theorem legible_flagged {r : Routine} (hr : r = breaking ∨ r = lasting) : flagged.Legible r := by
  have hplain : PlainName "flag" ∧ PlainName "n" := by decide
  refine Program.legible_of_plain ⟨?_, ?_, ?_, ?_, ?_, ?_⟩ ?_
  · simp [flagged, hplain]
  · rcases hr with rfl | rfl
    · simp [breaking, Routine.declared]
    · simp [lasting, Routine.declared]
  · simp [flagged, Expr.Spelled, hplain]
  · simp [flagged]
  · simp [flagged]
  · rcases hr with rfl | rfl
    · exact forall_mem_cons.mpr ⟨Action.spelled_havoc _, forall_mem_singleton.mpr
        (Action.spelled_assert ⟨hplain.1, trivial, hplain.2⟩)⟩
    · exact forall_mem_cons.mpr ⟨Action.spelled_havoc _, forall_mem_cons.mpr
        ⟨Action.spelled_assume hplain.1, forall_mem_singleton.mpr
          (Action.spelled_assert ⟨trivial, hplain.2⟩)⟩⟩
  · rcases hr with rfl | rfl
    · simp [flagged, breaking, Routine.declared]
    · simp [flagged, lasting, Routine.declared]

theorem exists_of_any {ε σ α : Type} {x : Except ε α × σ} {f : α → Bool}
    (h : x.1.toOption.any f = true) : ∃ a s, x = (.ok a, s) ∧ f a = true := by
  rcases x with ⟨e | a, s⟩
  · cases h
  · exact ⟨a, s, rfl, by simpa [Except.toOption] using h⟩

/-! ### The results -/

variable {P : Prover ω β} {answer : List Term → Term → Option Bool} {stub : Bool}
  {style : ConditionStyle} {p : Program}

/-- **Neighbours do not matter.** If two programs differ in their routines only, then
    there is one verdict for each routine, which it gets in both. In particular
    verdicts stay with their routines if these are put in another order. The prover
    takes all assumptions and retractions, and how a query ends is determined by what
    is assumed and asked, up to the numbers of generated names; a query may crash it.
    The verifiers may be new (`Verifier.serves_init`) or have been used before. -/
theorem verdicts_of_neighbours {H : ω → β → List Term → Prop} (hP : P.Answers H answer stub)
    (hanswer : Impartial answer) {rs : List Routine}
    (hlegible : ∀ r ∈ p.routines ++ rs, p.Legible r) {v v' w w' : Verifier ω β}
    (hv : v.Serves P H stub style) (hw : w.Serves P H stub style) {report report' : Report}
    (h : (Verifier.run p).run.run v = (.ok report, v'))
    (h' : (Verifier.run { p with routines := rs }).run.run w = (.ok report', w')) :
    ∃ verdict : Routine → Verdict,
      report.routines.map (fun x => (x.name, x.verdict)) =
        p.routines.map (fun r => (r.name, verdict r)) ∧
      report'.routines.map (fun x => (x.name, x.verdict)) =
        rs.map fun r => (r.name, verdict r) := by
  have hleft : ∀ r ∈ p.routines, p.Legible r := fun r hr => hlegible r (mem_append_left _ hr)
  have hright : ∀ r ∈ rs, p.Legible r := fun r hr => hlegible r (mem_append_right _ hr)
  have hsettles := (Verifier.settles_run hP hanswer hv hleft h).1
  have hsettles' := (Verifier.settles_run hP hanswer hw
    (fun r hr => (hright r hr).of_routines rs) h').1
  exact ⟨settled answer style p, map_of_settles hsettles,
    map_of_settles (hsettles'.imp fun _ _ h => ⟨h.name, h.verdict⟩)⟩

/-- One routine crashes the prover, and the other has its verdict before and after. -/
theorem verdicts_of_neighbours_flagged : ∃ (report report' : Report)
    (v v' : Verifier Unit (List Term)) (verdict : Routine → Verdict),
    (Verifier.run { flagged with routines := [breaking, lasting] }).run.run
      (Verifier.init (Prover.judging touchy) {} { outside := () }) = (.ok report, v) ∧
    (Verifier.run { flagged with routines := [lasting, breaking] }).run.run
      (Verifier.init (Prover.judging touchy) {} { outside := () }) = (.ok report', v') ∧
    report.routines.map (fun x => (x.name, x.verdict)) = [("breaking", .unknown), ("lasting", .ok)] ∧
    report.routines.map (fun x => (x.name, x.verdict)) =
      [breaking, lasting].map (fun r => (r.name, verdict r)) ∧
    report'.routines.map (fun x => (x.name, x.verdict)) =
      [lasting, breaking].map fun r => (r.name, verdict r) := by
  have hok : ((Verifier.run { flagged with routines := [breaking, lasting] }).run.run
      (Verifier.init (Prover.judging touchy) {} { outside := () })).1.toOption.any
        (fun report => decide (report.routines.map (fun x => (x.name, x.verdict)) =
          [("breaking", .unknown), ("lasting", .ok)])) = true := by
    decide +kernel
  have hok' : ((Verifier.run { flagged with routines := [lasting, breaking] }).run.run
      (Verifier.init (Prover.judging touchy) {} { outside := () })).1.toOption.any
        (fun _ => true) = true := by
    decide +kernel
  rcases exists_of_any hok with ⟨report, v, hrun, hreport⟩
  rcases exists_of_any hok' with ⟨report', v', hrun', _⟩
  have hserves := Verifier.serves_init (Prover.answers_judging touchy) {} ()
  have hboth : ∀ r ∈ [breaking, lasting] ++ [lasting, breaking], r = breaking ∨ r = lasting := by
    intro r hr
    rcases mem_append.mp hr with hr | hr
    · simpa using hr
    · simpa [or_comm] using hr
  rcases verdicts_of_neighbours (p := { flagged with routines := [breaking, lasting] })
    (Prover.answers_judging touchy) (impartial_judging touchy)
    (fun r hr => (legible_flagged (hboth r hr)).of_routines _) hserves hserves hrun hrun' with
    ⟨verdict, hverdicts, hverdicts'⟩
  exact ⟨report, report', v, v', verdict, hrun, hrun', of_decide_eq_true hreport, hverdicts,
    hverdicts'⟩

/-- **Workers do not matter.** One worker and several, whoever of them gets which
    routine, report the same verdicts in the order of the program, and agree on
    whether the run is degraded and on how it ends. The prover answers like above and
    keeps its assumptions to itself, as the one does that accepts everything
    (`Prover.answers_stub`). If there is no real prover, there has to be a routine. -/
theorem reports_of_jobs {H : β → List Term → Prop} (hP : P.Answers (fun _ => H) answer stub)
    (hanswer : Impartial answer) (hlegible : ∀ r ∈ p.routines, p.Legible r)
    (hroutines : stub = false ∨ p.routines ≠ []) {jobs : Nat} (hjobs : 2 ≤ jobs)
    {assign assign' : Nat → Nat} {o o₁ o' o₁' : ω} {report report' : Report}
    (h : (P.verifyProgram style 1 assign p).run o = (.ok report, o₁))
    (h' : (P.verifyProgram style jobs assign' p).run o' = (.ok report', o₁')) :
    report.routines.map (fun x => (x.name, x.verdict)) =
        report'.routines.map (fun x => (x.name, x.verdict)) ∧
      report.degraded = report'.degraded ∧ report.exitCode = report'.exitCode := by
  rw [Prover.verifyProgram, if_pos (Nat.le_refl 1)] at h
  rw [Prover.verifyProgram, if_neg (by omega)] at h'
  have hserves := Verifier.serves_init hP style o
  rcases hrun : (Verifier.run p).run.run (Verifier.init P style { outside := o }) with ⟨r, v⟩
  have halone : (P.verifyAlone style p).run o = (r, v.terminate.session.world.outside) := by
    have hend : (P.verifyAlone style p).run o =
        (((Verifier.run p).run.run (Verifier.init P style { outside := o })).1,
          ((Verifier.run p).run.run
            (Verifier.init P style { outside := o })).2.terminate.session.world.outside) := rfl
    rw [hend, hrun]
  cases halone.symm.trans h
  have hsettles := Verifier.settles_run hP hanswer hserves hlegible hrun
  have hsettles' := Workers.settles_verifyShared hP hanswer hlegible h'
  have hverdicts : report.routines.map (fun x => (x.name, x.verdict)) =
      report'.routines.map (fun x => (x.name, x.verdict)) :=
    (map_of_settles hsettles.1).trans (map_of_settles hsettles'.1).symm
  have hdegraded : report.degraded = report'.degraded := by
    rw [hsettles.2, hsettles'.2]
    rcases hroutines with rfl | hne
    · rw [Bool.and_false]
    · rw [isEmpty_eq_false_iff.mpr hne]
      rfl
  refine ⟨hverdicts, hdegraded, Report.exitCode_congr ?_ hdegraded⟩
  have hsnd := congrArg (List.map Prod.snd) hverdicts
  rw [map_map, map_map] at hsnd
  exact hsnd

/-- Two routines and no prover, with one worker and with one for each. -/
theorem reports_of_jobs_flagged : ∃ report report',
    ((Prover.stub Unit).verifyProgram {} 1 id
      { flagged with routines := [breaking, lasting] }).run () = (.ok report, ()) ∧
    ((Prover.stub Unit).verifyProgram {} 2 id
      { flagged with routines := [breaking, lasting] }).run () = (.ok report', ()) ∧
    report.degraded = true ∧
    report.routines.map (fun x => (x.name, x.verdict)) =
      report'.routines.map (fun x => (x.name, x.verdict)) ∧
    report.degraded = report'.degraded ∧ report.exitCode = report'.exitCode := by
  have hok : (((Prover.stub Unit).verifyProgram {} 1 id
      { flagged with routines := [breaking, lasting] }).run ()).1.toOption.any (·.degraded) =
      true := by
    decide +kernel
  have hok' : (((Prover.stub Unit).verifyProgram {} 2 id
      { flagged with routines := [breaking, lasting] }).run ()).1.toOption.any (fun _ => true) =
      true := by
    decide +kernel
  rcases exists_of_any hok with ⟨report, _, hrun, hdegraded⟩
  rcases exists_of_any hok' with ⟨report', _, hrun', _⟩
  have hboth : ∀ r ∈ [breaking, lasting], r = breaking ∨ r = lasting := by simp
  exact ⟨report, report', hrun, hrun', hdegraded, reports_of_jobs (Prover.answers_stub Unit)
    (fun _ => fun _ _ => rfl) (fun r hr => (legible_flagged (hboth r hr)).of_routines _)
    (.inr (by simp)) (Nat.le_refl 2) hrun hrun'⟩

end Vouch
