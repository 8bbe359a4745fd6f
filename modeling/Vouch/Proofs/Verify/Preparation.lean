import Vouch.Proofs.Condition.Failures
import Vouch.Proofs.Contract.Exits
import Vouch.Proofs.Verify.Recovery
import Vouch.Proofs.Verify.Soundness

/-!
# The Structure of Prepared Routines

Preparing a routine is one replacement of all its commands. Where to forget is decided
on the graph of the routine, and edges are cut in the graph of the prepared one, so
these had better be the same edges.

## Main definitions

* `Scope.standing`: What stands for a command.
* `Body.Expansion.Prepares`: The replacement by which a routine is prepared.

## Theorems

* `back_edges_prepared`: The same edges close cycles.
* `prepared_failures`: A prepared routine has no calls, and its graph has an order, so
  what is left to go wrong is in the expressions.
-/

namespace Vouch

open List FlowGraph

section Lists

variable {α β ε : Type} {f : α → Except ε β}

theorem forall₂_of_mapM : ∀ {xs : List α} {ys : List β}, xs.mapM f = .ok ys →
    Forall₂ (fun x y => f x = .ok y) xs ys
  | [], ys, h => by
    cases h
    exact .nil
  | x :: xs, ys, h => by
    rw [mapM_cons, bind_eq_ok_iff] at h
    rcases h with ⟨y, hy, h⟩
    rcases bind_eq_ok_iff.mp h with ⟨ys', hys, h⟩
    cases h
    exact .cons hy (forall₂_of_mapM hys)

theorem exists_of_mapM_flatten : ∀ {xss : List (List α)} {ys : List β},
    xss.flatten.mapM f = .ok ys → ∃ yss, (xss.mapM fun xs => xs.mapM f) = .ok yss ∧ ys = yss.flatten
  | [], ys, h => by
    cases h
    exact ⟨[], rfl, rfl⟩
  | xs :: xss, ys, h => by
    rw [flatten_cons, mapM_append, bind_eq_ok_iff] at h
    rcases h with ⟨zs, hzs, h⟩
    rcases bind_eq_ok_iff.mp h with ⟨zs', hzs', h⟩
    cases h
    rcases exists_of_mapM_flatten hzs' with ⟨yss, hyss, rfl⟩
    refine ⟨zs :: yss, ?_, flatten_cons.symm⟩
    rw [mapM_cons, bind_eq_ok_iff]
    exact ⟨zs, hzs, bind_eq_ok_iff.mpr ⟨yss, hyss, rfl⟩⟩

end Lists

section Calls

theorem Command.Becomes.of_plain {c : Command} (hjump : c.action.jump? = none) :
    ∀ {ds : List Command} {d : Command}, d.labels = c.labels → d.action.jump? = none →
      (∀ e ∈ ds, e.labels = [] ∧ e.action.jump? = none) → Becomes none c (d :: ds) := by
  intro ds
  induction ds generalizing c with
  | nil =>
    intro d hlabels hd _
    exact .last hlabels (by rw [hd, hjump, Option.map_none])
  | cons e es ih =>
    intro d hlabels hd hes
    rw [forall_mem_cons] at hes
    exact .before hlabels hd (ih (c := { c with labels := [] }) hjump hes.1.1 hes.1.2 hes.2)

theorem Procedure.contractCommands_plain (p : Procedure) (σ : NameMap Expr) :
    ∀ d ∈ p.contractCommands σ, d.labels = [] ∧ d.action.jump? = none ∧
      ∀ site, d.action ≠ .call site := by
  intro d hd
  simp only [contractCommands, mem_append, mem_map] at hd
  rcases hd with (⟨_, _, rfl⟩ | ⟨_, _, rfl⟩) | ⟨_, _, rfl⟩ <;>
    exact ⟨rfl, rfl, fun _ => by simp [Command.assert, Command.havoc, Command.assume,
      Command.unlabelled]⟩

theorem Procedure.exists_labelFirst (labels : List String) {ds : List Command}
    (hds : ∀ d ∈ ds, d.labels = [] ∧ d.action.jump? = none ∧ ∀ site, d.action ≠ .call site) :
    ∃ e es, labelFirst labels ds = e :: es ∧ e.labels = labels ∧
      (∀ d ∈ es, d.labels = [] ∧ d.action.jump? = none) ∧
      ∀ d ∈ e :: es, d.action.jump? = none ∧ ∀ site, d.action ≠ .call site := by
  cases ds with
  | nil => exact ⟨_, [], rfl, rfl, by simp, by simp [Action.jump?]⟩
  | cons d ds =>
    rw [forall_mem_cons] at hds
    exact ⟨_, ds, rfl, rfl, fun e he => ⟨(hds.2 e he).1, (hds.2 e he).2.1⟩,
      forall_mem_cons.mpr ⟨hds.1.2, fun e he => (hds.2 e he).2⟩⟩

namespace Scope

variable {s : Scope} {c : Command} {ds : List Command}

theorem becomes_expandCommand (h : s.expandCommand c = .ok ds) :
    Command.Becomes none c ds ∧ ∀ d ∈ ds, ∀ site, d.action ≠ .call site := by
  by_cases hcall : ∃ site, c.action = .call site
  · rcases hcall with ⟨site, hsite⟩
    unfold expandCommand at h
    rw [hsite] at h
    dsimp only at h
    cases hp : s.procedure? site.callee with
    | none =>
      rw [hp] at h
      cases h
    | some p =>
      rw [hp] at h
      rcases bind_eq_ok_iff.mp h with ⟨_, _, h⟩
      rcases bind_eq_ok_iff.mp h with ⟨_, _, h⟩
      cases h
      rcases Procedure.exists_labelFirst c.labels
        (p.contractCommands_plain (p.callSubst site)) with ⟨e, es, heq, hlabels, hplain, hall⟩
      rw [heq]
      refine ⟨.of_plain (by rw [hsite]; rfl) hlabels (hall e mem_cons_self).1 hplain,
        fun d hd => (hall d hd).2⟩
  · rw [not_exists] at hcall
    rw [s.expandCommand_of_not_call hcall] at h
    cases h
    exact ⟨.last rfl (by simp), by simpa using hcall⟩

/-- What stands for a command of a prepared routine, before its jumps to the outside
    are looked after: what has to be forgotten first, and contracts for calls. -/
def standing (s : Scope) (a : LoopAnalysis) (c : Command) (v : Nat) :
    Except ContractError (List Command) := do
  return (← (a.expand c v).mapM s.expandCommand).flatten

variable {a : LoopAnalysis} {v : Nat}

theorem becomes_standing (h : s.standing a c v = .ok ds) :
    Command.Becomes none c ds ∧ ∀ d ∈ ds, ∀ site, d.action ≠ .call site := by
  rcases bind_eq_ok_iff.mp h with ⟨dss, hdss, h⟩
  cases h
  have hall := forall₂_of_mapM hdss
  refine ⟨(a.becomes_expand c v).flatten (hall.imp fun _ _ h => (becomes_expandCommand h).1),
    fun d hd => ?_⟩
  obtain ⟨es, hes, hd⟩ := mem_flatten.mp hd
  rcases exists_of_forall₂_right hall hes with ⟨_, _, h⟩
  exact (becomes_expandCommand h).2 d hd

theorem head?_standing (h : s.standing a c v = .ok ds) {vars : NameSet}
    (hvars : a.havocSet? v = some vars) :
    ds.head? = some { labels := c.labels, action := .havoc vars.toList } := by
  rcases bind_eq_ok_iff.mp h with ⟨dss, hdss, h⟩
  cases h
  rw [LoopAnalysis.expand, hvars] at hdss
  dsimp only at hdss
  rw [mapM_cons, s.expandCommand_of_not_call (by simp), bind_eq_ok_iff] at hdss
  rcases hdss with ⟨_, hfirst, hdss⟩
  rcases bind_eq_ok_iff.mp hdss with ⟨dss', _, hdss⟩
  cases hfirst
  cases hdss
  rfl

theorem exists_standing {body body' : Body} (h : s.expandCalls (a.spliced body) = .ok body') :
    ∃ pieces, Forall₂ (fun p ds => s.standing a p.1 p.2 = .ok ds) body.zipIdx pieces ∧
      body' = pieces.flatten := by
  rcases bind_eq_ok_iff.mp h with ⟨dss, hdss, h⟩
  cases h
  rw [LoopAnalysis.spliced, flatMap_def] at hdss
  rcases exists_of_mapM_flatten hdss with ⟨dsss, hdsss, rfl⟩
  refine ⟨dsss.map List.flatten, ?_, flatten_flatten⟩
  have hall := forall₂_map_left_iff.mp (forall₂_of_mapM hdsss)
  refine forall₂_map_right_iff.mpr (hall.imp fun p dss h => ?_)
  exact bind_eq_ok_iff.mpr ⟨dss, h, rfl⟩

end Scope

end Calls

section Preparing

/-- The label of the block of postconditions of a routine, if it has any. -/
def Scope.exit? (s : Scope) (r : Routine) : Option String :=
  (s.procedure? r.name).bind Procedure.exit?

/-- The replacement by which a routine is prepared, given the graph of its body. -/
structure Body.Expansion.Prepares {r : Routine} (X : Body.Expansion r.body) (s : Scope)
    (g : FlowGraph) : Prop where
  exit : X.exit = s.exit? r
  pieces : ∀ v c, r.body[v]? = some c → ∃ ds,
    (s.enter r).standing (g.analyseLoops r.body (s.enter r)) c v = .ok ds ∧
      X.pieces[v]? = some (ds.map (Command.leave X.exit))

variable {s : Scope} {r r' : Routine} {g : FlowGraph}

/-- Commands before and after a body, what stands for each of its commands in
    between. -/
theorem exists_prepares {pieces : List (List Command)} {front back : List Command}
    (hpieces : Forall₂ (fun p ds => (s.enter r).standing
      (g.analyseLoops r.body (s.enter r)) p.1 p.2 = .ok ds) r.body.zipIdx pieces)
    (hfront : ∀ d ∈ front, ∃ e, d = Command.assume e) (hback : Body.Ending (s.exit? r) back)
    (hcalls : ∀ d ∈ back, ∀ site, d.action ≠ .call site) :
    ∃ X : Body.Expansion r.body, X.Prepares s g ∧ X.result.CallFree ∧
      X.result = front ++ (pieces.flatten.map (Command.leave (s.exit? r)) ++ back) := by
  have hexit : ∀ x ∈ s.exit? r, x = exitLabel := by
    intro x hx
    obtain ⟨p, _, hp⟩ := Option.bind_eq_some_iff.mp hx
    exact Procedure.eq_exitLabel x hp
  have hbecomes : Forall₂ (Command.Becomes (s.exit? r)) r.body
      (pieces.map (List.map (Command.leave (s.exit? r)))) := by
    have hmap := forall₂_map_left_iff (R := Command.Becomes (s.exit? r)) (f := Prod.fst)
      (l := r.body.zipIdx) (u := pieces.map (List.map (Command.leave (s.exit? r))))
    rw [zipIdx_map_fst] at hmap
    rw [hmap, forall₂_map_right_iff]
    exact hpieces.imp fun _ _ h => (Scope.becomes_standing h).1.leave hexit
  refine ⟨⟨front, _, back, s.exit? r, ?_, ?_, hbecomes, hback⟩, ⟨rfl, fun v c hc => ?_⟩, ?_, ?_⟩
  · intro d hd
    obtain ⟨e, rfl⟩ := hfront d hd
    rfl
  · intro d hd
    obtain ⟨e, rfl⟩ := hfront d hd
    rfl
  · have hv : v < r.body.length := (List.getElem?_eq_some_iff.mp hc).1
    have hv' : v < pieces.length := by simpa [← hpieces.length_eq] using hv
    have hget := hpieces.get (i := v) (by simpa using hv) hv'
    refine ⟨pieces[v], ?_, by simp [hv']⟩
    simpa [List.getElem?_eq_some_iff.mp hc |>.2] using hget
  · intro d hd
    rcases mem_append.mp hd with hd | hd
    · obtain ⟨e, rfl⟩ := hfront d hd
      simp [Command.assume, Command.unlabelled]
    rcases mem_append.mp hd with hd | hd
    · obtain ⟨es, hes, hd⟩ := mem_flatten.mp hd
      obtain ⟨ds, hds, rfl⟩ := mem_map.mp hes
      obtain ⟨e, he, rfl⟩ := mem_map.mp hd
      rcases exists_of_forall₂_right hpieces hds with ⟨_, _, h⟩
      exact Command.leave_ne_call _ ((Scope.becomes_standing h).2 e he)
    · exact hcalls d hd
  · simp [Body.Expansion.result, map_flatten]

theorem exists_expansion (h : s.prepare r = .ok r') : ∃ g, FlowGraph.ofBody r.body = .ok g ∧
    ∃ X : Body.Expansion r.body, X.Prepares s g ∧ X.result.CallFree ∧ r'.body = X.result := by
  unfold Scope.prepare at h
  rcases bind_eq_ok_iff.mp h with ⟨g, hg, h⟩
  rcases bind_eq_ok_iff.mp h with ⟨havocked, hhavocked, h⟩
  rcases bind_eq_ok_iff.mp h with ⟨body, hbody, h⟩
  have hg := eq_ok_of_mapError hg
  refine ⟨g, hg, ?_⟩
  rcases insertHavocs_eq_ok hg (s.enter r) with ⟨_, hok, hspliced, _⟩
  rw [eq_ok_of_mapError hhavocked] at hok
  cases hok
  have hbody := eq_ok_of_mapError hbody
  rw [hspliced] at hbody
  rcases Scope.exists_standing hbody with ⟨pieces, hpieces, rfl⟩
  cases hp : s.procedure? r.name with
  | none =>
    have hexit : s.exit? r = none := by simp [Scope.exit?, hp]
    rw [hp] at h
    cases h
    have hback : Body.Ending (s.exit? r) [] := hexit ▸ .empty
    have hfront : ∀ d ∈ ([] : List Command), ∃ e, d = Command.assume e := by simp
    rcases exists_prepares hpieces hfront hback (by simp) with ⟨X, hX, hcalls, hresult⟩
    refine ⟨X, hX, hcalls, ?_⟩
    rw [hresult, hexit, Command.leave_none]
    simp
  | some p =>
    have hexit : s.exit? r = p.exit? := by simp [Scope.exit?, hp]
    rw [hp] at h
    obtain rfl := Routine.eq_of_inlineContract (eq_ok_of_mapError h)
    have hfront : ∀ (σ : NameMap Expr), ∀ d ∈ p.requires.map (fun e => Command.assume (e.subst σ)),
        ∃ e, d = Command.assume e := by simp
    rcases exists_prepares hpieces (hfront _) (hexit ▸ Routine.ending_exitBlock p _)
      (Routine.exitBlock_ne_call _) with ⟨X, hX, hcalls, hresult⟩
    refine ⟨X, hX, hcalls, ?_⟩
    rw [hresult, hexit]

variable {X : Body.Expansion r.body}

theorem Body.Expansion.Prepares.exists_ofBody (hX : X.Prepares s g)
    (hg : FlowGraph.ofBody r.body = .ok g) (hlabels : ∀ c ∈ r.body, exitLabel ∉ c.labels) :
    ∃ g', FlowGraph.ofBody X.result = .ok g' := by
  refine Body.Expansion.exists_ofBody hg fun x hx hmem => ?_
  rw [hX.exit] at hx
  obtain ⟨p, _, hp⟩ := Option.bind_eq_some_iff.mp hx
  obtain ⟨c, hc, hmem⟩ := mem_flatMap.mp hmem
  exact hlabels c hc (Procedure.eq_exitLabel x hp ▸ hmem)

theorem FlowGraph.mem_loopHeaders {body : Body} (hg : FlowGraph.ofBody body = .ok g) {x : Nat} :
    x ∈ g.loopHeaders g.cut.backEdges ↔ ∃ u, (u, x) ∈ g.cut.backEdges := by
  refine ⟨fun h => (exists_of_mem_loopHeaders h).2, fun ⟨u, hmem⟩ => ?_⟩
  have hedge := (closes_cycle (fun _ => entry_lt_size hg) hmem).2.1
  exact mem_filter.mpr ⟨mem_range.mpr (lt_size_of_mem_successors hedge),
    any_eq_true.mpr ⟨(u, x), hmem, by simp⟩⟩

theorem FlowGraph.havocSet?_of_mem_loopHeaders (body : Body) (s : Scope) {v : Nat}
    (hv : v ∈ g.loopHeaders g.cut.backEdges) :
    (∃ vars, (g.analyseLoops body s).havocSet? v = some vars) ∨
      ∀ x, x ∉ s.writesAt body (g.naturalLoop g.cut.backEdges g.predecessors v) := by
  by_cases hwrites : ∃ x, x ∈ s.writesAt body (g.naturalLoop g.cut.backEdges g.predecessors v)
  · rcases hwrites with ⟨x, hx⟩
    have hbefore : (fun v => g.predecessorTable.getD v []) = g.predecessors := by
      funext u
      exact g.predecessorTable_getD u
    rw [← hbefore] at hx
    have hsome := LoopAnalysis.headerHavoc?_of_mem (a := g.analyseLoops body s)
      (lookup_graph _ hv) hx
    unfold LoopAnalysis.havocSet?
    rw [hsome]
    cases (g.analyseLoops body s).entryHavoc? v <;> exact .inl ⟨_, rfl⟩
  · exact .inr (not_exists.mp hwrites)

theorem Body.Expansion.Prepares.getElem?_start (hX : X.Prepares s g)
    (hg : FlowGraph.ofBody r.body = .ok g) {v : Nat} {vars : NameSet}
    (hvars : (g.analyseLoops r.body (s.enter r)).havocSet? v = some vars) :
    (X.result[X.start v]?).map (·.action) = some (.havoc vars.toList) := by
  have hv : v < r.body.length := size_ofBody hg ▸ (exists_of_havocSet? hvars).1
  rcases hX.pieces v _ (getElem?_eq_getElem hv) with ⟨ds, hds, hpiece⟩
  obtain ⟨es, rfl⟩ := head?_eq_some_iff.mp (Scope.head?_standing hds hvars)
  have hget := Body.Expansion.getElem?_result hpiece (i := 0) (by simp)
  rw [Nat.add_zero] at hget
  rw [hget, map_cons, Command.leave_eq_self _ rfl]
  rfl

end Preparing

section Sample

/-- Add to a sum again and again, and leave. -/
def summingRoutine : Routine where
  name := "main"
  body := [
    { action := .assign [("sum", .int 1)] },
    { labels := ["top"], action := .call { callee := "add", args := [.var "sum"] } },
    { action := .goto ["top", "out"] },
    { labels := ["out"], action := .goto [] }]

/-- A sum that stays positive if a positive number is added. -/
def summingProgram : Program where
  globals := [{ name := "sum", ty := .int }]
  procedures := [
    { name := "add", args := [{ name := "n", ty := .int }],
      requires := [.binary .lt (.int 0) (.var "n")], modifies := [["sum"]],
      ensures := [.binary .lt (.int 0) (.var "sum")] },
    { name := "main", ensures := [.binary .lt (.int 0) (.var "sum")] }]
  routines := [summingRoutine]

theorem exists_prepare_summing : ∃ p r, summingProgram.prepare = .ok p ∧ r ∈ p.routines ∧
    (Scope.ofProgram summingProgram).prepare summingRoutine = .ok r ∧ r.body.length = 8 := by
  have hok : (((Scope.ofProgram summingProgram).prepare summingRoutine).toOption.map
      (·.body.length)) = some 8 := by
    decide +kernel
  cases h : (Scope.ofProgram summingProgram).prepare summingRoutine with
  | error e => rw [h] at hok; cases hok
  | ok r =>
  rw [h] at hok
  refine ⟨{ summingProgram with routines := [r] }, r, ?_, mem_singleton_self r, rfl,
    Option.some.inj hok⟩
  refine bind_eq_ok_iff.mpr ⟨[r], ?_, rfl⟩
  rw [show summingProgram.routines = [summingRoutine] from rfl, mapM_cons, h]
  rfl

theorem exitLabel_not_mem_summing : ∀ c ∈ summingRoutine.body, exitLabel ∉ c.labels := by
  decide

end Sample

/-- The edges that close cycles survive preparation. If a routine does not use the
    label of the block of postconditions and can be prepared, the edges cut from the
    graph of the prepared routine are those cut from the graph of the routine, in the
    same order, each from the last command that stands for its source to the first that
    stands for its target. So they lead to where the loops begin, and there what the
    loop writes is forgotten. -/
theorem back_edges_prepared {s : Scope} {r r' : Routine}
    (hlabels : ∀ c ∈ r.body, exitLabel ∉ c.labels) (h : s.prepare r = .ok r') :
    ∃ (g g' : FlowGraph) (X : Body.Expansion r.body),
      FlowGraph.ofBody r.body = .ok g ∧ FlowGraph.ofBody r'.body = .ok g' ∧
      r'.body = X.result ∧ X.Prepares s g ∧
      g'.cut.backEdges = g.cut.backEdges.map (fun e => (X.image e.1, X.start e.2)) ∧
      (∀ x, (∃ u, (u, x) ∈ g'.cut.backEdges) ↔ ∃ v ∈ g.loopHeaders g.cut.backEdges, x = X.start v) ∧
      ∀ v ∈ g.loopHeaders g.cut.backEdges,
        (∃ vars, (g.analyseLoops r.body (s.enter r)).havocSet? v = some vars ∧
          (r'.body[X.start v]?).map (·.action) = some (.havoc vars.toList)) ∨
        ∀ x, x ∉ (s.enter r).writesAt r.body
          (g.naturalLoop g.cut.backEdges g.predecessors v) := by
  rcases exists_expansion h with ⟨g, hg, X, hX, _, hbody⟩
  rcases hX.exists_ofBody hg hlabels with ⟨g', hg'⟩
  have hedges := Body.Expansion.backEdges_cut hg hg'
  refine ⟨g, g', X, hg, hbody ▸ hg', hbody, hX, hedges, fun x => ?_, fun v hv => ?_⟩
  · simp only [hedges, mem_map, mem_loopHeaders hg, Prod.mk.injEq]
    constructor
    · rintro ⟨_, ⟨u, v⟩, hmem, _, rfl⟩
      exact ⟨v, ⟨u, hmem⟩, rfl⟩
    · rintro ⟨v, ⟨u, hmem⟩, rfl⟩
      exact ⟨_, (u, v), hmem, rfl, rfl⟩
  · refine (havocSet?_of_mem_loopHeaders r.body (s.enter r) hv).imp_left ?_
    rintro ⟨vars, hvars⟩
    exact ⟨vars, hvars, hbody ▸ hX.getElem?_start hg hvars⟩

theorem back_edges_prepared_summing : ∃ (r' : Routine) (g g' : FlowGraph)
    (X : Body.Expansion summingRoutine.body),
      (Scope.ofProgram summingProgram).prepare summingRoutine = .ok r' ∧
      FlowGraph.ofBody summingRoutine.body = .ok g ∧ FlowGraph.ofBody r'.body = .ok g' ∧
      r'.body = X.result ∧ g.cut.backEdges = [(2, 1)] ∧
      g'.cut.backEdges = g.cut.backEdges.map (fun e => (X.image e.1, X.start e.2)) := by
  rcases exists_prepare_summing with ⟨_, r', _, _, h, _⟩
  rcases back_edges_prepared exitLabel_not_mem_summing h with
    ⟨g, g', X, hg, hg', hbody, _, hedges, _⟩
  have hcut : (FlowGraph.ofBody summingRoutine.body).toOption.map (·.cut.backEdges) =
      some [(2, 1)] := by
    decide +kernel
  rw [hg] at hcut
  exact ⟨r', g, g', X, h, hg, hg', hbody, Option.some.inj hcut, hedges⟩

section Structure

variable {r : Routine} {g : FlowGraph}

theorem FlowGraph.size_cut (g : FlowGraph) : g.cut.graph.size = g.size := by
  simp [FlowGraph.cut, FlowGraph.filterEdges, FlowGraph.size, FlowGraph.nodes]

variable {err : VerifyError}

theorem Verifier.exists_of_condition_error {style : ConditionStyle} {s : Scope} {supply : Supply}
    (hg : FlowGraph.ofBody r.body = .ok g) (h : ((condition style s r).run supply).1 = .error err) :
    ∃ e, err = .condition e ∧
      ((Condition.compute { style with theory := .standard, scope := s.enter r } r.name r.body
        g.cut.graph).runFresh.run supply).1 = .error e := by
  unfold condition at h
  rw [hg] at h
  have h : (((Condition.compute { style with theory := .standard, scope := s.enter r } r.name
      r.body g.cut.graph).runFresh.run supply).1).mapError .condition = .error err := h
  generalize ((Condition.compute { style with theory := .standard, scope := s.enter r } r.name
    r.body g.cut.graph).runFresh.run supply).1 = result at h
  cases result with
  | ok t => cases h
  | error e =>
    cases h
    exact ⟨e, rfl, rfl⟩

theorem Verifier.ofExpression_of_verify {ω β : Type} {v v' : Verifier ω β}
    (hg : FlowGraph.ofBody r.body = .ok g) (hcalls : r.body.CallFree)
    (h : (Verifier.verify r).run.run v = (.error err, v')) :
    ∃ e, err = .condition e ∧ e.OfExpression := by
  rcases verify_cases (v := v) r with ⟨err', supply, hcondition, hrun⟩ | ⟨_, _, _, hrun⟩
  · cases hrun.symm.trans h
    rcases exists_of_condition_error hg (congrArg Prod.fst hcondition) with ⟨e, rfl, he⟩
    -- Without cycles there is an order, so the graph is no reason to fail.
    have hacyclic := acyclic_cut fun _ => entry_lt_size hg
    obtain ⟨order, horder⟩ := exists_topologicalOrder hacyclic
    have hsize : g.cut.graph.size = r.body.length := by
      rw [size_cut, size_ofBody hg]
    exact ⟨e, rfl, failsOnly_compute hcalls hsize horder r.name _ e he⟩
  · cases hrun.symm.trans h

theorem FlowGraph.labels_of_ofBody {body : Body} (hg : FlowGraph.ofBody body = .ok g) :
    (body.flatMap (·.labels)).Nodup ∧ ∀ c ∈ body, ∀ names, c.action = .goto names →
      ∀ x ∈ names, ∃ d ∈ body, x ∈ d.labels := by
  rcases ofBody_eq_ok_iff.mp hg with ⟨labels, hlabels, hres, _⟩
  refine ⟨Body.map_fst_labelled body ▸ (Body.labelTable_eq_ok_iff.mp hlabels).1,
    fun c hc names hact x hx => ?_⟩
  have hsome := Command.resolved_iff.mp (hres c hc) names (by rw [hact]; rfl) x hx
  obtain ⟨v, hv⟩ := Option.isSome_iff_exists.mp hsome
  have hmem := mem_map_of_mem (f := Prod.fst) ((Body.find?_labelTable hlabels).mp hv)
  rw [Body.map_fst_labelled] at hmem
  exact mem_flatMap.mp hmem

end Structure

/-- Prepared programs cannot fail because of their structure. If no routine of a
    program uses the label of the block of postconditions and the program can be
    prepared, then in every prepared routine labels are different, jumps lead to labels,
    no call is left, and the graph without the edges that are cut has a node for each
    command and no cycle. Checking the routine, with whatever was installed before, can
    only fail because a variable is unknown, an expression has no formula, or a
    quantifier stands where a value is needed. -/
theorem prepared_failures {p p' : Program}
    (hlabels : ∀ r ∈ p.routines, ∀ c ∈ r.body, exitLabel ∉ c.labels) (h : p.prepare = .ok p') :
    ∀ r ∈ p'.routines,
      (r.body.flatMap (·.labels)).Nodup ∧
      (∀ c ∈ r.body, ∀ names, c.action = .goto names → ∀ x ∈ names, ∃ d ∈ r.body, x ∈ d.labels) ∧
      (∀ c ∈ r.body, ∀ site, c.action ≠ .call site) ∧
      (∃ g, FlowGraph.ofBody r.body = .ok g ∧ g.cut.graph.size = r.body.length ∧
        g.cut.graph.Acyclic) ∧
      ∀ (ω β : Type) (v v' : Verifier ω β) (err : VerifyError),
        (Verifier.verify r).run.run v = (.error err, v') →
          (∃ x, err = .condition (.unknownVariable x)) ∨
          (∃ text, err = .condition (.illTyped text)) ∨
          ∃ text, err = .condition (.quantifierInTerm text) := by
  intro r' hr'
  rcases bind_eq_ok_iff.mp h with ⟨routines, hroutines, heq⟩
  cases heq
  rcases exists_of_forall₂_right (forall₂_of_mapM hroutines) hr' with ⟨r, hr, hprepare⟩
  rcases exists_expansion hprepare with ⟨g, hg, X, hX, hcalls, hbody⟩
  rcases hX.exists_ofBody hg (hlabels r hr) with ⟨g', hg'⟩
  rw [← hbody] at hg' hcalls
  rcases labels_of_ofBody hg' with ⟨hnodup, hjumps⟩
  refine ⟨hnodup, hjumps, hcalls, ⟨g', hg', ?_, ?_⟩, fun ω β v v' err herr => ?_⟩
  · rw [size_cut, size_ofBody hg']
  · exact acyclic_cut fun _ => entry_lt_size hg'
  · rcases Verifier.ofExpression_of_verify hg' hcalls herr with ⟨e, rfl, he⟩
    cases he with
    | unknownVariable x => exact .inl ⟨x, rfl⟩
    | illTyped text => exact .inr (.inl ⟨text, rfl⟩)
    | quantifierInTerm text => exact .inr (.inr ⟨text, rfl⟩)

theorem prepared_failures_summing : ∃ p r, summingProgram.prepare = .ok p ∧ r ∈ p.routines ∧
    r.body.length = 8 ∧ (r.body.flatMap (·.labels)).Nodup ∧
    (∀ c ∈ r.body, ∀ site, c.action ≠ .call site) ∧
    ∃ g, FlowGraph.ofBody r.body = .ok g ∧ g.cut.graph.size = r.body.length ∧
      g.cut.graph.Acyclic := by
  rcases exists_prepare_summing with ⟨p, r, hp, hr, _, hlength⟩
  have hlabels : ∀ r ∈ summingProgram.routines, ∀ c ∈ r.body, exitLabel ∉ c.labels :=
    forall_mem_singleton.mpr exitLabel_not_mem_summing
  rcases prepared_failures hlabels hp r hr with ⟨hnodup, _, hcalls, hgraph, _⟩
  exact ⟨p, r, hp, hr, hlength, hnodup, hcalls, hgraph⟩

end Vouch
