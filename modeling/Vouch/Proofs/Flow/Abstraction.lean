import Vouch.Proofs.Flow.Insertion
import Vouch.Proofs.Lang.Execution

/-!
# Forgetting Covers Every Iteration

If everything that a loop writes is forgotten before it, then what another iteration
could lead to is among what can be guessed the first time. The invariant is about every
node an execution passed. A step along an edge that is not cut carries it over.

## Main definitions

* `FlowGraph.Returning`: Closing edges lead back to where one has been.
* `FlowGraph.Reducible`: Their targets dominate their sources.
* `LoopAnalysis.Covers`: The invariant.

## Theorems

* `FlowGraph.Reducible.returning`: In a reducible graph one has always been there.
* `returning_executions_covered`: Executions that return are covered.
-/

namespace Vouch

open List

namespace FlowGraph

/-- Along the nodes, the latest first, closing edges lead back to where one has
    been. -/
def Returning (g : FlowGraph) : List Nat → Prop
  | v :: u :: rest => ((u, v) ∈ g.cut.backEdges → v ∈ u :: rest) ∧ g.Returning (u :: rest)
  | _ => True

/-- Every way from the entry to `u` passes `h`. -/
def Dominates (g : FlowGraph) (h u : Nat) : Prop :=
  ∀ e, g.entry = some e → e ≠ h → ¬ g.Around h e u

/-- The targets of the edges that are cut dominate their sources. -/
def Reducible (g : FlowGraph) : Prop :=
  ∀ b ∈ g.cut.backEdges, g.Dominates b.2 b.1

end FlowGraph

namespace Machine

variable {s : Scope} {M : Machine s} {stop : Bool} {body : Body} {g : FlowGraph}
  {p : List (Nat × M.St)}

theorem Trace.reaches (hp : M.Trace stop body g p) :
    ∃ e, g.entry = some e ∧ ∀ q ∈ p, g.Reaches e q.1 := by
  induction hp with
  | start a h =>
    refine ⟨_, h, fun q hq => ?_⟩
    rw [mem_singleton.mp hq]
    exact .refl
  | step _ _ _ hv ih =>
    rcases ih with ⟨e, hentry, hreach⟩
    refine ⟨e, hentry, forall_mem_cons.mpr ⟨?_, hreach⟩⟩
    exact (forall_mem_cons.mp hreach).1.tail hv

theorem Trace.around (hp : M.Trace stop body g p) {h : Nat} (hnot : h ∉ p.map (·.1)) :
    ∃ e, g.entry = some e ∧ e ≠ h ∧
      ∀ q, p.head? = some q → g.Around h e q.1 := by
  induction hp with
  | @start v a hentry =>
    refine ⟨v, hentry, fun hvh => hnot (by simp [hvh]), fun q hq => ?_⟩
    obtain rfl : (v, a) = q := by simpa using hq
    exact .refl
  | @step u v a b p c _ _ _ hv ih =>
    rw [map_cons, mem_cons, not_or] at hnot
    rcases ih hnot.2 with ⟨e, hentry, hne, haround⟩
    refine ⟨e, hentry, hne, fun q hq => ?_⟩
    obtain rfl : (v, b) = q := by simpa using hq
    exact (haround _ rfl).tail ⟨hv, fun hvh => hnot.1 hvh.symm⟩

theorem Trace.exists_last_visit (hp : M.Trace stop body g p) {h : Nat} (hmem : h ∈ p.map (·.1))
    {u : Nat} {a : M.St} (hhead : p.head? = some (u, a)) :
    ∃ b, (h, b) ∈ p ∧ g.Around h h u ∧
      ∀ x, (∀ n c, g.Around h h n → g.Around h n u → body[n]? = some c → x ∉ s.writes c) →
        a.get x = b.get x := by
  induction hp generalizing u a with
  | @start v b _ =>
    obtain ⟨rfl, rfl⟩ : v = u ∧ b = a := by simpa using hhead
    obtain rfl : h = v := by simpa using hmem
    exact ⟨b, by simp, .refl, fun _ _ => rfl⟩
  | @step w v a' b' p c _ hc hdoes hv ih =>
    obtain ⟨rfl, rfl⟩ : v = u ∧ b' = a := by simpa using hhead
    by_cases hvh : v = h
    · -- The execution is at the node now.
      subst hvh
      exact ⟨b', by simp, .refl, fun _ _ => rfl⟩
    · have hmem : h ∈ ((w, a') :: p).map (·.1) :=
        (mem_cons.mp hmem).resolve_left fun heq => hvh heq.symm
      rcases ih hmem rfl with ⟨b, hb, haround, hkeep⟩
      -- The last step is on the way, and so is all that was on the way before it.
      refine ⟨b, mem_cons_of_mem _ hb, haround.tail ⟨hv, hvh⟩, fun x hx => ?_⟩
      have hlast : b'.get x = a'.get x :=
        hdoes.frame (hx w c haround (.single ⟨hv, hvh⟩) hc)
      rw [hlast]
      exact hkeep x fun n d hn hnw => hx n d hn (hnw.tail ⟨hv, hvh⟩)

end Machine

/-- The target of a closing edge was passed on every way to its source. -/
theorem FlowGraph.Reducible.returning {s : Scope} {M : Machine s} {stop : Bool} {body : Body}
    {g : FlowGraph} (hg : g.Reducible) {p : List (Nat × M.St)} (hp : M.Trace stop body g p) :
    g.Returning (p.map (·.1)) := by
  induction hp with
  | start a h => trivial
  | @step u v a b p c hp _ _ _ ih =>
    refine ⟨fun hback => ?_, ih⟩
    -- Otherwise the execution would be a way around a node that dominates.
    by_contra hnot
    rcases hp.around hnot with ⟨e, hentry, hne, haround⟩
    exact hg _ hback e hentry hne (haround _ rfl)

/-- Where the node starts in the body with the commands put in, an execution along
    the edges that are not cut arrives with the values that are not forgotten. -/
def LoopAnalysis.Covers (a : LoopAnalysis) {s : Scope} (M : Machine s) (stop : Bool) (body : Body)
    (g' : FlowGraph) (v : Nat) (b : M.St) : Prop :=
  ∃ b', M.Arrives stop (a.spliced body) g'.cut.graph (a.start v) b' ∧
    ∀ x, x ∉ a.forgotten v → b'.get x = b.get x

section Covers

variable {s : Scope} {M : Machine s} {stop : Bool} {body : Body} {g g' : FlowGraph} {e : Nat}
  (hg : FlowGraph.ofBody body = .ok g)
  (hg' : FlowGraph.ofBody ((g.analyseLoops body s).spliced body) = .ok g')
  (hentry : g.entry = some e)

include hg hg' hentry

variable {b : M.St} {v : Nat} {p : List (Nat × M.St)}

theorem LoopAnalysis.Covers.arrives (hv : g.Reaches e v)
    (h : (g.analyseLoops body s).Covers M stop body g' v b) :
    M.Arrives stop ((g.analyseLoops body s).spliced body) g'.cut.graph
      ((g.analyseLoops body s).image v) b := by
  have he := FlowGraph.entry_lt_size hg hentry
  rcases h with ⟨b', ⟨p, hp⟩, hb'⟩
  unfold forgotten at hb'
  cases hset : (g.analyseLoops body s).havocSet? v with
  | none =>
    -- Nothing is forgotten, so the state is the one that is covered.
    have himage : (g.analyseLoops body s).image v = (g.analyseLoops body s).start v := by
      simp [image, hset]
    rw [hset] at hb'
    have hbb' : b' = b := State.ext fun x => hb' x (by simp)
    rw [himage, ← hbb']
    exact ⟨p, hp⟩
  | some vars =>
    -- The command put in goes from the one state to the other.
    have hne : (g.analyseLoops body s).start v ≠ (g.analyseLoops body s).image v := by
      rw [start_ne_image, hset, Option.isSome_some]
    have hlt : v < body.length := FlowGraph.size_ofBody hg ▸ hv.lt_size he
    obtain ⟨c, hc, hact⟩ := Option.map_eq_some_iff.mp
      (getElem?_start _ (getElem?_eq_getElem hlt) hset)
    refine ⟨_, .step hp hc ?_ (FlowGraph.mem_cut_start hg hg' hentry hv hne)⟩
    rw [hact]
    intro x hx
    rw [hset] at hb'
    exact (hb' x hx).symm

theorem covers_of_step {u : Nat} {d : M.St} {c : Command} (hu : g.Reaches e u)
    (h : (g.analyseLoops body s).Covers M stop body g' u b) (hc : body[u]? = some c)
    (hdoes : M.Does stop c.action b d) (hv : v ∈ g.successors u) (hopen : (u, v) ∉ g.walk.closing) :
    (g.analyseLoops body s).Covers M stop body g' v d := by
  have he := FlowGraph.entry_lt_size hg hentry
  rcases h.arrives hg hg' hentry hu with ⟨p, hp⟩
  -- The command is the same, and so is what it does.
  obtain ⟨c', hc', hact⟩ := Option.map_eq_some_iff.mp (LoopAnalysis.getElem?_image _ hc)
  rw [← hact] at hdoes
  exact ⟨d, ⟨_, .step hp hc' hdoes (FlowGraph.mem_cut_image hg hg' hentry hu hv hopen)⟩,
    fun _ _ => rfl⟩

omit hg' in
theorem covers_of_return {u h : Nat} {d : M.St} {c : Command}
    (hp : M.Trace stop body g ((u, b) :: p))
    (hcovers : ∀ q ∈ (u, b) :: p, (g.analyseLoops body s).Covers M stop body g' q.1 q.2)
    (hc : body[u]? = some c) (hdoes : M.Does stop c.action b d)
    (hclosing : (u, h) ∈ g.walk.closing) (hmem : h ∈ ((u, b) :: p).map (·.1)) :
    (g.analyseLoops body s).Covers M stop body g' h d := by
  have he := FlowGraph.entry_lt_size hg hentry
  rcases hp.exists_last_visit hmem rfl with ⟨b₀, hb₀, haround, hkeep⟩
  have hreach : g.Reaches e h := by
    rcases hp.reaches with ⟨e', hentry', hreach⟩
    obtain rfl : e = e' := by simpa [hentry] using hentry'
    exact hreach _ hb₀
  rcases hcovers _ hb₀ with ⟨b', harrives, hb'⟩
  refine ⟨b', harrives, fun x hx => ?_⟩
  -- What was written since then is forgotten.
  have hwrites : ∀ n c, g.Around h h n → g.Around h n u → body[n]? = some c → x ∉ s.writes c :=
    fun n c hn hnu hc hmem =>
      hx (FlowGraph.writes_forgotten hentry he hclosing hreach hn hnu hc hmem)
  rw [hb' x hx, ← hkeep x hwrites]
  exact (hdoes.frame (hwrites u c haround .refl hc)).symm

theorem Machine.Trace.covers (hp : M.Trace stop body g p) (hret : g.Returning (p.map (·.1))) :
    ∀ q ∈ p, (g.analyseLoops body s).Covers M stop body g' q.1 q.2 := by
  induction hp with
  | @start v b hv =>
    obtain rfl : v = e := by simpa [hv] using hentry
    rw [forall_mem_singleton]
    exact ⟨b, ⟨[], .start b (FlowGraph.entry_spliced hg hg' hentry)⟩, fun _ _ => rfl⟩
  | @step u v b d p c hp hc hdoes hv ih =>
    have hcovers := ih hret.2
    refine forall_mem_cons.mpr ⟨?_, hcovers⟩
    by_cases hclosing : (u, v) ∈ g.walk.closing
    · exact covers_of_return hg hentry hp hcovers hc hdoes hclosing
        (hret.1 (mem_reverse.mpr hclosing))
    · rcases hp.reaches with ⟨e', hentry', hreach⟩
      obtain rfl : e = e' := by simpa [hentry] using hentry'
      rw [forall_mem_cons] at hreach hcovers
      exact covers_of_step hg hg' hentry hreach.1 hcovers.1 hc hdoes hv hclosing

theorem Machine.Trace.arrives_image (hp : M.Trace stop body g ((v, b) :: p))
    (hret : g.Returning (((v, b) :: p).map (·.1))) :
    M.Arrives stop ((g.analyseLoops body s).spliced body) g'.cut.graph
      ((g.analyseLoops body s).image v) b := by
  have hcovers := hp.covers hg hg' hentry hret (v, b) (mem_cons_self ..)
  rcases hp.reaches with ⟨e', hentry', hreach⟩
  obtain rfl : e = e' := by simpa [hentry] using hentry'
  exact hcovers.arrives hg hg' hentry (hreach _ (mem_cons_self ..))

end Covers

section Loop

/-- A number. -/
def loopScope : Scope :=
  { globals := .ofList [("x", .int)] }

/-- Forget the number again and again. -/
def loopBody : Body :=
  [{ labels := ["top"], action := .havoc ["x"] }, { action := .goto ["top"] }]

/-- One command after the other, in a circle. -/
def loopGraph : FlowGraph :=
  .ofEdges 2 (some 0) [(0, 1), (1, 0)]

/-- The number has the given value. -/
noncomputable def loopState (n : Int) : State Interp.trees loopScope where
  get x := Interp.trees.int (if x = "x" then n else 0)
  fits := by
    intro x T h
    have hT : T = .int := by
      simp only [loopScope, Scope.infer_var_nil, Scope.varType?, NameMap.ofList, NameMap.insertAll,
        foldl_cons, foldl_nil, NameMap.find?_insert] at h
      split at h
      · exact (Option.some.inj h).symm
      · cases h
    subst hT
    exact ⟨_, rfl⟩

theorem ofBody_loopBody : FlowGraph.ofBody loopBody = .ok loopGraph := rfl

theorem trace_loopBody : (Machine.withoutCalls loopScope .trees).Trace false loopBody loopGraph
    [(0, loopState 1), (1, loopState 1), (0, loopState 0)] := by
  have hstart : (Machine.withoutCalls loopScope .trees).Trace false loopBody loopGraph
      [(0, loopState 0)] := Machine.Trace.start (M := .withoutCalls loopScope .trees) _ rfl
  have hhavoc : (Machine.withoutCalls loopScope .trees).Does false (.havoc ["x"]) (loopState 0)
      (loopState 1) := by
    intro x hx
    have hne : x ≠ "x" := fun h => hx (by simp [h])
    change Interp.trees.int _ = Interp.trees.int _
    rw [if_neg hne, if_neg hne]
  have honce := Machine.Trace.step hstart rfl hhavoc (show 1 ∈ loopGraph.successors 0 by decide)
  exact .step (c := { action := .goto ["top"] }) honce rfl rfl (by decide)

theorem returning_loopBody : loopGraph.Returning [0, 1, 0] :=
  ⟨fun _ => by decide, fun h => absurd h (by decide), trivial⟩

end Loop

/-- Loops that forget what they write cover any number of iterations. Whatever
    command and state an execution of a body reaches, if it takes closing edges only
    back to where it has been, the command is reached in that state in the body with
    the commands put in, after the one put in before it, along edges that are not cut.
    Executions along a reducible graph are all of this kind. -/
theorem returning_executions_covered {s : Scope} {body : Body} {g : FlowGraph}
    (hg : FlowGraph.ofBody body = .ok g) :
    ∃ h, g.insertHavocs body s = .ok h ∧ FlowGraph.ofBody h.body = .ok h.graph ∧
      (∀ v c, body[v]? = some c →
        (h.body[(g.analyseLoops body s).image v]?).map (·.action) = some c.action) ∧
      ∀ (M : Machine s) (stop : Bool) (v : Nat) (b : M.St) (p : List (Nat × M.St)),
        M.Trace stop body g ((v, b) :: p) →
        g.Reducible ∨ g.Returning (((v, b) :: p).map (·.1)) →
          M.Arrives stop h.body h.graph.cut.graph ((g.analyseLoops body s).image v) b := by
  rcases FlowGraph.insertHavocs_eq_ok hg s with ⟨h, hok, hbody, hgraph⟩
  refine ⟨h, hok, hgraph, fun v c hc => ?_, fun M stop v b p hp hret => ?_⟩
  · rw [hbody]
    exact LoopAnalysis.getElem?_image _ hc
  · rw [hbody] at hgraph ⊢
    rcases hp.reaches with ⟨e, hentry, _⟩
    exact hp.arrives_image hg hgraph hentry (hret.elim (fun hred => hred.returning hp) id)

theorem returning_executions_covered_loop : ∃ h,
    loopGraph.insertHavocs loopBody loopScope = .ok h ∧
      (Machine.withoutCalls loopScope .trees).Arrives false h.body h.graph.cut.graph 1
        (loopState 1) := by
  rcases returning_executions_covered (s := loopScope) ofBody_loopBody with ⟨h, hok, _, _, hcovers⟩
  exact ⟨h, hok, hcovers _ _ _ _ _ trace_loopBody (Or.inr returning_loopBody)⟩

end Vouch
