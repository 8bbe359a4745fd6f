import Vouch.Proofs.Condition.Exactness
import Vouch.Proofs.Flow.Abstraction
import Vouch.Verify.Verifier

/-!
# What Is Verified Does Not Fail

The condition of a routine is that of another body along another graph, and two facts
connect the two. The condition is exact for the body and the graph it was computed of,
and everything an execution of the routine reaches is reached there.

## Theorems

* `verified_routine_safe`: A routine whose condition is valid has no execution that
  reaches an assertion that does not hold, however often it goes round its loops.
-/

namespace Vouch

open List

/-- No command is a call. -/
def Body.CallFree (body : Body) : Prop :=
  ∀ c ∈ body, ∀ site, c.action ≠ .call site

variable {s : Scope} {style : ConditionStyle} {supply : Supply}

theorem LoopAnalysis.mem_spliced {g : FlowGraph} {body : Body} {c : Command}
    (hc : c ∈ (g.analyseLoops body s).spliced body) :
    (∃ vars, c.action = .havoc vars ∧ ∀ x ∈ vars, ∃ d ∈ body, x ∈ s.writes d) ∨
      ∃ d ∈ body, c.action = d.action := by
  obtain ⟨p, hp, hc⟩ := mem_flatMap.mp hc
  have hmem : p.1 ∈ body := fst_mem_of_mem_zipIdx hp
  unfold expand at hc
  split at hc
  · next vars hvars =>
    rcases mem_cons.mp hc with rfl | hc
    · -- What is forgotten are writes of the body.
      rcases (FlowGraph.exists_of_havocSet? hvars).2 with ⟨nodes, rfl⟩
      exact .inl ⟨_, rfl, fun x hx => Scope.exists_of_mem_writesAt hx⟩
    · rw [mem_singleton.mp hc]
      exact .inr ⟨p.1, hmem, rfl⟩
  · rw [mem_singleton.mp hc]
    exact .inr ⟨p.1, hmem, rfl⟩

theorem Action.WellTyped.declared {c : Command} (hc : c.action.WellTyped s)
    (hcall : ∀ site, c.action ≠ .call site) {x : String} (hx : x ∈ s.writes c) :
    ∃ T, s.varType? x = some T := by
  unfold Scope.writes at hx
  cases hact : c.action with
  | assign pairs =>
    rw [hact] at hc hx
    rcases mem_map.mp (NameSet.mem_ofList.mp hx) with ⟨p, hp, rfl⟩
    rcases hc.2 p hp with ⟨T, hT, _⟩
    exact ⟨T, hT⟩
  | havoc vars =>
    rw [hact] at hc hx
    exact hc x (NameSet.mem_ofList.mp hx)
  | call site => exact absurd hact (hcall site)
  | _ =>
    rw [hact] at hx
    simp at hx

namespace Body

variable {g : FlowGraph} {body : Body} {s : Scope}

theorem CallFree.spliced (h : body.CallFree) : ((g.analyseLoops body s).spliced body).CallFree := by
  intro c hc site
  rcases LoopAnalysis.mem_spliced hc with ⟨vars, hact, _⟩ | ⟨d, hd, hact⟩
  · simp [hact]
  · rw [hact]
    exact h d hd site

theorem WellTyped.spliced (h : body.WellTyped s) (hcalls : body.CallFree) :
    ((g.analyseLoops body s).spliced body).WellTyped s := by
  intro c hc
  rcases LoopAnalysis.mem_spliced hc with ⟨vars, hact, hvars⟩ | ⟨d, hd, hact⟩
  · rw [hact]
    intro x hx
    rcases hvars x hx with ⟨d, hd, hwrites⟩
    exact (h d hd).declared (hcalls d hd) hwrites
  · rw [hact]
    exact h d hd

end Body

namespace Scope

theorem expandCommand_of_not_call (s : Scope) {c : Command}
    (h : ∀ site, c.action ≠ .call site) : s.expandCommand c = .ok [c] := by
  unfold expandCommand
  cases hact : c.action with
  | call site => exact absurd hact (h site)
  | _ => rfl

theorem expandCalls_of_callFree (s : Scope) {body : Body} (h : body.CallFree) :
    s.expandCalls body = .ok body := by
  have hmapM : body.mapM s.expandCommand = .ok (body.map fun c => [c]) := by
    induction body with
    | nil => rfl
    | cons c cs ih =>
      have hc := s.expandCommand_of_not_call (h c (mem_cons_self ..))
      rw [mapM_cons, hc, ih (forall_mem_cons.mp h).2]
      rfl
  have hflatten : (body.map fun c => [c]).flatten = body := by
    rw [← flatMap_def, flatMap_singleton']
  exact bind_eq_ok_iff.mpr ⟨_, hmapM, congrArg Except.ok hflatten⟩

theorem prepare_eq_ok {s : Scope} {r : Routine} {g : FlowGraph} (hcalls : r.body.CallFree)
    (hproc : s.procedure? r.name = none) (hg : FlowGraph.ofBody r.body = .ok g) :
    s.prepare r = .ok { r with body := (g.analyseLoops r.body (s.enter r)).spliced r.body } := by
  rcases FlowGraph.insertHavocs_eq_ok hg (s.enter r) with ⟨h, hok, hbody, _⟩
  have hexpand : (s.enter r).expandCalls h.body = .ok h.body := by
    rw [hbody]
    exact (s.enter r).expandCalls_of_callFree hcalls.spliced
  refine bind_eq_ok_iff.mpr ⟨g, by rw [hg]; rfl, bind_eq_ok_iff.mpr ⟨h, by rw [hok]; rfl,
    bind_eq_ok_iff.mpr ⟨h.body, by rw [hexpand]; rfl, ?_⟩⟩⟩
  rw [hproc, hbody]
  rfl

end Scope

theorem eq_ok_of_mapError {α ε δ : Type} {x : Except ε α} {f : ε → δ} {a : α}
    (h : x.mapError f = .ok a) : x = .ok a := by
  cases x with
  | error err => cases h
  | ok a' =>
    cases h
    rfl

theorem Verifier.exists_of_condition {r : Routine} {t : Term}
    (h : ((condition style s r).run supply).1 = .ok t) :
    ∃ g, FlowGraph.ofBody r.body = .ok g ∧
      ((Condition.compute { style with theory := .standard, scope := s.enter r } r.name r.body
        g.cut.graph).runFresh.run supply).1 = .ok t := by
  unfold condition at h
  cases hg : FlowGraph.ofBody r.body with
  | error err =>
    rw [hg] at h
    cases h
  | ok g =>
    rw [hg] at h
    exact ⟨g, rfl, eq_ok_of_mapError h⟩

theorem Verifier.condition_exact {r : Routine} {t : Term} (hnames : (s.enter r).PlainNames)
    (hsep : (s.enter r).Separated) (hbody : r.body.WellTyped (s.enter r))
    (h : ((condition style s r).run supply).1 = .ok t) :
    ∃ g, FlowGraph.ofBody r.body = .ok g ∧ ∀ M : Machine (s.enter r),
      t.Valid (s.enter r) M.interp ↔ M.Safe false r.body g.cut.graph := by
  rcases exists_of_condition h with ⟨g, hg, hcompute⟩
  exact ⟨g, hg, (encodes_compute (c := { style with theory := .standard, scope := s.enter r })
    Theory.advances_standard hnames hsep hbody r.name).of_runFresh hcompute⟩

theorem Machine.Safe.of_spliced {M : Machine s} {stop : Bool} {body : Body} {g g' : FlowGraph}
    (hg : FlowGraph.ofBody body = .ok g)
    (hg' : FlowGraph.ofBody ((g.analyseLoops body s).spliced body) = .ok g') (hred : g.Reducible)
    (h : M.Safe stop ((g.analyseLoops body s).spliced body) g'.cut.graph) : M.Safe stop body g := by
  rintro v b ⟨p, hp⟩ ⟨c, hc, hrefutes⟩
  -- The assertion fails at its place in the other body, in the same state.
  rcases hp.reaches with ⟨e, hentry, _⟩
  obtain ⟨c', hc', hact⟩ := Option.map_eq_some_iff.mp (LoopAnalysis.getElem?_image _ hc)
  rw [← hact] at hrefutes
  exact h _ b (hp.arrives_image hg hg' hentry (hred.returning hp)) ⟨c', hc', hrefutes⟩

section Counting

/-- Set the boolean, and assert it again and again while the number grows. -/
def countingRoutine : Routine where
  name := "r"
  body := [.assign "b" (.bool true), { labels := ["top"], action := .assert (.var "b") },
    .assign "n" (.binary .add (.var "n") (.int 1)), { action := .goto ["top"] }]

/-- The way into a circle. -/
def countingGraph : FlowGraph :=
  .ofEdges 4 (some 0) [(0, 1), (1, 2), (2, 3), (3, 1)]

/-- The number is forgotten before the assertion. -/
def countingPrepared : Routine where
  name := "r"
  body := [.assign "b" (.bool true), { labels := ["top"], action := .havoc ["n"] },
    { action := .assert (.var "b") }, .assign "n" (.binary .add (.var "n") (.int 1)),
    { action := .goto ["top"] }]

theorem ofBody_countingRoutine : FlowGraph.ofBody countingRoutine.body = .ok countingGraph := rfl

theorem countingRoutine_callFree : countingRoutine.body.CallFree := by
  intro c hc site
  simp only [countingRoutine, mem_cons, not_mem_nil, or_false] at hc
  rcases hc with rfl | rfl | rfl | rfl <;>
    · intro h
      cases h

theorem countingRoutine_wellTyped :
    countingRoutine.body.WellTyped (sampleScope.enter countingRoutine) := by
  have hb : HasType (sampleScope.enter countingRoutine) [] (.var "b") .bool := .var rfl
  have hadd : HasType (sampleScope.enter countingRoutine) []
      (.binary .add (.var "n") (.int 1)) .int := .binary (T := .int) rfl (.var rfl) .int
  intro c hc
  simp only [countingRoutine, mem_cons, not_mem_nil, or_false] at hc
  rcases hc with rfl | rfl | rfl | rfl
  · refine ⟨by simp, fun p hp => ⟨.bool, ?_⟩⟩
    rw [mem_singleton.mp hp]
    exact ⟨rfl, .bool, by unfold Expr.Plain; decide⟩
  · exact ⟨hb, by unfold Expr.Plain; decide⟩
  · refine ⟨by simp, fun p hp => ⟨.int, ?_⟩⟩
    rw [mem_singleton.mp hp]
    exact ⟨rfl, hadd, by unfold Expr.Plain; decide⟩
  · trivial

theorem countingGraph_reducible : countingGraph.Reducible := by
  intro b hb e hentry hne haround
  obtain rfl : e = 0 := (Option.some.inj hentry).symm
  obtain rfl : b = (3, 1) := mem_singleton.mp (show b ∈ [(3, 1)] from hb)
  -- The first step from the entry leads to the top.
  rcases Relation.ReflTransGen.cases_head haround with h | ⟨m, ⟨hm, hm'⟩, _⟩
  · cases h
  · exact hm' (mem_singleton.mp (show m ∈ [1] from hm))

theorem prepare_countingRoutine : sampleScope.prepare countingRoutine = .ok countingPrepared :=
  Scope.prepare_eq_ok countingRoutine_callFree rfl ofBody_countingRoutine

theorem enter_countingRoutine_plainNames : (sampleScope.enter countingRoutine).PlainNames :=
  Scope.plainNames_of_keys (by decide)

theorem enter_countingRoutine_separated : (sampleScope.enter countingRoutine).Separated :=
  Scope.separated_of_keys enter_countingRoutine_plainNames (by decide)

theorem countingPrepared_safe (M : Machine (sampleScope.enter countingRoutine)) {g : FlowGraph}
    (hentry : g.entry = some 0) : M.Safe false countingPrepared.body g := by
  have hset : ∀ p, M.Trace false countingPrepared.body g p → ∀ q ∈ p, q.1 ≠ 0 →
      M.Holds (.var "b") q.2 := by
    intro p hp
    induction hp with
    | @start v a h =>
      obtain rfl : v = 0 := by simpa [hentry] using h.symm
      simp
    | @step u v a b p c _ hc hdoes _ ih =>
      refine forall_mem_cons.mpr ⟨fun _ => ?_, ih⟩
      change M.interp.Holds (b.get "b")
      rcases u with _ | u
      · cases hc
        rw [show b.get = _ from hdoes]
        refine Interp.assigned_of_mem ?_ (mem_singleton_self ("b", Expr.bool true)) a.get
        exact nodup_singleton "b"
      · have hframe : "b" ∉ (sampleScope.enter countingRoutine).writes c := by
          rcases u with _ | _ | _ | _ | u <;> cases hc <;> decide
        rw [hdoes.frame hframe]
        exact (forall_mem_cons.mp ih).1 (Nat.succ_ne_zero u)
  rintro v b ⟨p, hp⟩ ⟨c, hc, hrefutes⟩
  rcases v with _ | _ | _ | _ | _ | v <;> cases hc
  case succ.succ.zero => exact hrefutes (hset _ hp _ (mem_cons_self ..) (Nat.succ_ne_zero 1))
  all_goals exact hrefutes

theorem countingCondition_valid {style : ConditionStyle} {t : Term}
    (h : ((Verifier.condition style sampleScope countingPrepared).run {}).1 = .ok t) :
    t.Valid (sampleScope.enter countingRoutine) Interp.trees := by
  have hbody : countingPrepared.body.WellTyped (sampleScope.enter countingRoutine) :=
    countingRoutine_wellTyped.spliced (g := countingGraph) countingRoutine_callFree
  rcases Verifier.condition_exact (r := countingPrepared) enter_countingRoutine_plainNames
    enter_countingRoutine_separated hbody h with ⟨g, hg, hexact⟩
  have hentry : g.cut.graph.entry = some 0 := FlowGraph.entry_ofBody hg
  exact (hexact (.withoutCalls _ .trees)).mpr (countingPrepared_safe _ hentry)

end Counting

/-- A routine that was verified does not fail. Let a routine have no calls and no
    contract, let it respect types, let its names be plain and stay apart from values,
    and let its graph be reducible. If it can be prepared and the condition of what it
    becomes is valid, then no execution of the routine as it was written, whatever state
    it starts in and however long it is, reaches an assertion that does not hold. -/
theorem verified_routine_safe {s : Scope} {r r' : Routine} {g : FlowGraph}
    {style : ConditionStyle} {supply : Supply} {t : Term} (hcalls : r.body.CallFree)
    (hproc : s.procedure? r.name = none) (hnames : (s.enter r).PlainNames)
    (hsep : (s.enter r).Separated) (hbody : r.body.WellTyped (s.enter r))
    (hg : FlowGraph.ofBody r.body = .ok g) (hred : g.Reducible) (hprep : s.prepare r = .ok r')
    (hvc : ((Verifier.condition style s r').run supply).1 = .ok t) (M : Machine (s.enter r))
    (hvalid : t.Valid (s.enter r) M.interp) : M.Safe false r.body g := by
  rw [Scope.prepare_eq_ok hcalls hproc hg] at hprep
  cases hprep
  rcases Verifier.condition_exact
    (r := { r with body := (g.analyseLoops r.body (s.enter r)).spliced r.body }) hnames hsep
    (hbody.spliced hcalls) hvc with ⟨g', hg', hexact⟩
  exact .of_spliced hg hg' hred ((hexact M).mp hvalid)

theorem verified_routine_safe_counting : ∃ r' t,
    sampleScope.prepare countingRoutine = .ok r' ∧
      ((Verifier.condition { method := .sp } sampleScope r').run {}).1 = .ok t ∧
      t.Valid (sampleScope.enter countingRoutine) Interp.trees ∧
      (Machine.withoutCalls (sampleScope.enter countingRoutine) .trees).Safe false
        countingRoutine.body countingGraph := by
  have hok : ((Verifier.condition { method := .sp } sampleScope countingPrepared).run {}).1.isOk :=
    by decide +kernel
  rcases exists_ok_of_isOk hok with ⟨t, ht⟩
  exact ⟨_, t, prepare_countingRoutine, ht, countingCondition_valid ht,
    verified_routine_safe countingRoutine_callFree rfl enter_countingRoutine_plainNames
      enter_countingRoutine_separated countingRoutine_wellTyped ofBody_countingRoutine
      countingGraph_reducible prepare_countingRoutine ht (Machine.withoutCalls _ .trees)
      (countingCondition_valid ht)⟩

end Vouch
