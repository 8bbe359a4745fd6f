import Vouch.Proofs.Flow.Abstraction

/-!
# Only the Loop Is Forgotten

What is forgotten at an entry of a component is written by commands of the component. At
any other header it is what the natural loop writes, and going back along all edges that
can come to commands that the header does not reach.

## Main definitions

* `FlowGraph.Encloses`: A header reaches its natural loop.
* `FlowGraph.Agrees`: Two graphs differ in dead code only.

## Theorems

* `FlowGraph.Reducible.encloses`: In reducible graphs headers enclose their loops, if no
  dead code leads into the rest.
* `havocs_confined`: Then only the loop is forgotten, and dead code has no influence.
-/

namespace Vouch

open List

namespace FlowGraph

variable {g g' : FlowGraph} {body body' : Body} {s : Scope} {n v : Nat}

/-- The node reaches everything from which one of its closing edges can be reached
    without passing it. -/
def Encloses (g : FlowGraph) (n : Nat) : Prop :=
  ∀ u m, (u, n) ∈ g.cut.backEdges → g.Around n m u → g.Reaches n m

/-- A way to a closing edge from the entry passes the header, because the header
    dominates the source of the edge. -/
theorem Reducible.encloses (hred : g.Reducible)
    (hdead : ∀ u v, v ∈ g.successors u → g.Live v → g.Live u)
    (he : ∀ e, g.entry = some e → e < g.size) (n : Nat) : g.Encloses n := by
  intro u m hback haround
  have hm : g.Live m := by
    induction haround using Relation.ReflTransGen.head_induction_on with
    | refl => exact (closes_cycle he hback).1
    | head hstep _ ih => exact hdead _ _ hstep.1 ih
  rcases hm with ⟨e, hentry, hreach⟩
  -- Along the way the header is behind, or it has not been met.
  have hway : g.Reaches n m ∨ e ≠ n ∧ g.Around n e m := by
    induction hreach with
    | refl =>
      by_cases hne : e = n
      · exact .inl (hne ▸ .refl)
      · exact .inr ⟨hne, .refl⟩
    | @tail x y _ hstep ih =>
      by_cases hy : y = n
      · exact .inl (hy ▸ .refl)
      · exact (ih (.head ⟨hstep, hy⟩ haround)).imp (·.tail hstep)
          fun h => ⟨h.1, h.2.tail ⟨hstep, hy⟩⟩
  refine hway.resolve_right fun h => ?_
  exact hred _ hback e hentry h.1 (h.2.trans haround)

section Found

variable (he : ∀ e, g.entry = some e → e < g.size)
include he

section Header

variable (h : n ∈ g.loopHeaders g.cut.backEdges) {m : Nat}
include h

theorem live_of_mem_loopHeaders : g.Live n := by
  rcases exists_of_mem_loopHeaders h with ⟨_, u, hback⟩
  rcases closes_cycle he hback with ⟨hu, hedge, _⟩
  exact hu.trans (.single hedge)

theorem mem_loop_iff :
    m ∈ g.naturalLoop g.cut.backEdges (fun v => g.predecessorTable.getD v []) n ↔
      m = n ∨ ∃ u, (u, n) ∈ g.cut.backEdges ∧ g.Around n m u := by
  rcases live_of_mem_loopHeaders he h with ⟨e, hentry, _⟩
  exact mem_naturalLoop_iff (nodup_reverse.mpr (nodup_closing hentry (he e hentry)))
    (fun _ hb => (closes_cycle he hb).2.1) (exists_of_mem_loopHeaders h).1

theorem Encloses.reaches (hloop : g.Encloses n)
    (hm : m ∈ g.naturalLoop g.cut.backEdges (fun v => g.predecessorTable.getD v []) n) :
    g.Reaches n m ∧ g.Reaches m n := by
  rcases (mem_loop_iff he h).mp hm with rfl | ⟨u, hback, haround⟩
  · exact ⟨.refl, .refl⟩
  · exact ⟨hloop u m hback haround, haround.reaches.tail (closes_cycle he hback).2.1⟩

end Header

theorem exists_write {vars : NameSet} (h : (g.analyseLoops body s).havocSet? n = some vars)
    (hloop : (g.analyseLoops body s).entryHavoc? n = none → g.Encloses n) {x : String}
    (hx : x ∈ vars) : ∃ m c, body[m]? = some c ∧ x ∈ s.writes c ∧ g.Live m ∧
      g.Reaches n m ∧ g.Reaches m n := by
  have hlive := (cycle_of_havocSet? he h).1
  rcases havocSet?_cases h with ⟨_, k, hk, _, rfl⟩ | ⟨hnone, hheader, rfl⟩
  · obtain ⟨m, hm, c, hc, hx⟩ := Scope.mem_writesAt_iff.mp hx
    have hfound := Components.found_components he
    have hways := (hfound.connected n m k k hk ((hfound.labelled m k).mpr hm)).mp rfl
    exact ⟨m, c, hc, hx, hlive.trans hways.1, hways⟩
  · obtain ⟨m, hm, c, hc, hx⟩ := Scope.mem_writesAt_iff.mp hx
    have hways := (hloop hnone).reaches he hheader hm
    exact ⟨m, c, hc, hx, hlive.trans hways.1, hways⟩

end Found

theorem writesAt_congr {nodes : List Nat} (h : ∀ v ∈ nodes, body'[v]? = body[v]?) :
    s.writesAt body' nodes = s.writesAt body nodes := by
  unfold Scope.writesAt
  simp only [getElem?_toArray]
  rw [filterMap_congr h]

/-- Two graphs have the same nodes and the same edges out of nodes that the entry
    reaches. -/
structure Agrees (g g' : FlowGraph) : Prop where
  size : g'.size = g.size
  entry : g'.entry = g.entry
  successors : ∀ v, g.Live v → g'.successors v = g.successors v

namespace Agrees

section Ways

variable (h : g.Agrees g')
include h

theorem live_of (hv : g'.Live v) : g.Live v := by
  rcases hv with ⟨e, hentry, hreach⟩
  induction hreach with
  | refl => exact ⟨e, h.entry ▸ hentry, .refl⟩
  | tail _ hstep ih => exact ih.trans (.single (h.successors _ ih ▸ hstep))

theorem symm : g'.Agrees g :=
  ⟨h.size.symm, h.entry.symm, fun v hv => (h.successors v (h.live_of hv)).symm⟩

theorem around {m u : Nat} (hm : g.Live m) (hu : g.Around n m u) : g'.Around n m u := by
  induction hu using Relation.ReflTransGen.head_induction_on with
  | refl => exact .refl
  | head hstep _ ih =>
    refine .head ⟨h.successors _ hm ▸ hstep.1, hstep.2⟩ (ih (hm.trans (.single hstep.1)))

theorem visit_eq (fuel : Nat) (path : List Nat) (w : Walk) (hv : g.Live v) :
    g'.visit fuel path v w = g.visit fuel path v w := by
  induction fuel generalizing path v w with
  | zero => rfl
  | succ fuel ih =>
    have hfollow : ∀ w, ∀ u ∈ g.successors v,
        g'.follow fuel (v :: path) v w u = g.follow fuel (v :: path) v w u := by
      intro w u hu
      rw [follow, follow, ih _ _ (hv.trans (.single hu))]
    rw [visit_succ, visit_succ, h.successors v hv,
      foldl_ext _ _ _ fun w u hu => hfollow w u hu]

theorem walk_eq : g'.walk = g.walk := by
  unfold walk
  rw [h.entry, h.size]
  cases hentry : g.entry with
  | none => rfl
  | some e => exact h.visit_eq _ _ _ ⟨e, hentry, .refl⟩

theorem backEdges_eq : g'.cut.backEdges = g.cut.backEdges :=
  congrArg (·.closing.reverse) h.walk_eq

theorem loopHeaders_eq : g'.loopHeaders g'.cut.backEdges = g.loopHeaders g.cut.backEdges := by
  unfold loopHeaders nodes
  rw [h.backEdges_eq, h.size]

variable (he : ∀ e, g.entry = some e → e < g.size)
include he

theorem livePredecessors_eq : g'.livePredecessors = g.livePredecessors := by
  funext v
  unfold livePredecessors
  rw [predecessorTable_getD, predecessorTable_getD, predecessors, predecessors, nodes, nodes,
    h.size, h.walk_eq, filter_filter, filter_filter]
  refine filter_congr fun u _ => ?_
  by_cases hu : g.Live u
  · rw [h.successors u hu]
  · have hnot : (Std.TreeSet.ofList g.walk.left : Nodes).contains u = false := by
      rw [← Bool.not_eq_true, Std.TreeSet.contains_iff_mem, mem_ofList, mem_left_iff he]
      exact hu
    rw [hnot, Bool.false_and, Bool.false_and]

theorem components_eq : g'.components = g.components := by
  have hfold : ∀ g : FlowGraph, g.components =
      g.walk.left.foldl (Components.add g.livePredecessors g.size) {} := fun _ => rfl
  rw [hfold, hfold, h.walk_eq, h.livePredecessors_eq he, h.size]

theorem naturalLoop_eq (hn : n ∈ g.loopHeaders g.cut.backEdges) (hloop : g.Encloses n)
    (hloop' : g'.Encloses n) :
    g'.naturalLoop g'.cut.backEdges (fun v => g'.predecessorTable.getD v []) n =
      g.naturalLoop g.cut.backEdges (fun v => g.predecessorTable.getD v []) n := by
  have hlive := live_of_mem_loopHeaders he hn
  have he' : ∀ e, g'.entry = some e → e < g'.size := by
    rw [h.entry, h.size]
    exact he
  have hback := h.backEdges_eq
  have hsame : ∀ m, m ∈ g'.naturalLoop g'.cut.backEdges
      (fun v => g'.predecessorTable.getD v []) n ↔
        m ∈ g.naturalLoop g.cut.backEdges (fun v => g.predecessorTable.getD v []) n := by
    intro m
    rw [mem_loop_iff he hn, mem_loop_iff he' (h.loopHeaders_eq ▸ hn), hback]
    refine or_congr_right (exists_congr fun u => and_congr_right fun hu =>
      ⟨fun hm => ?_, fun hm => ?_⟩)
    · exact h.symm.around ((h.symm.live_of hlive).trans (hloop' u m (hback ▸ hu) hm)) hm
    · exact h.around (hlive.trans (hloop u m hu hm)) hm
  -- Both are selections from the same list.
  have hnodes : g'.nodes = g.nodes := congrArg List.range h.size
  unfold naturalLoop at hsame ⊢
  simp only [hnodes] at hsame ⊢
  refine filter_congr fun m hm => Bool.eq_iff_iff.mpr ?_
  simpa only [mem_filter, hm, true_and] using hsame m

section Analysis

variable (hbody : ∀ v, g.Live v → body'[v]? = body[v]?)
include hbody

theorem entryHavoc?_eq (n : Nat) : (g'.analyseLoops body' s).entryHavoc? n =
    (g.analyseLoops body s).entryHavoc? n := by
  have hfound := Components.found_components he
  have hcomps : (g'.analyseLoops body' s).components = (g.analyseLoops body s).components :=
    h.components_eq he
  have hpoints : (g'.analyseLoops body' s).entryPoints = (g.analyseLoops body s).entryPoints := by
    unfold analyseLoops nodes
    dsimp only
    rw [h.components_eq he, h.size]
  have hwrites : (g'.analyseLoops body' s).writes = (g.analyseLoops body s).writes := by
    unfold analyseLoops
    dsimp only
    rw [h.components_eq he]
    refine map_congr_left fun k _ => writesAt_congr fun v hv => hbody v ?_
    exact hfound.live v k ((hfound.labelled v k).mpr hv)
  unfold LoopAnalysis.entryHavoc? LoopAnalysis.size
  rw [hcomps, hpoints, hwrites]

theorem havocSet?_eq (hloop : (g.analyseLoops body s).entryHavoc? n = none →
    g.Encloses n ∧ g'.Encloses n) :
    (g'.analyseLoops body' s).havocSet? n = (g.analyseLoops body s).havocSet? n := by
  unfold LoopAnalysis.havocSet?
  rw [h.entryHavoc?_eq he hbody]
  cases hnone : (g.analyseLoops body s).entryHavoc? n with
  | some writes => rw [Option.orElse_some, Option.orElse_some]
  | none =>
    rcases hloop hnone with ⟨hloop, hloop'⟩
    have hlookup : (g'.analyseLoops body' s).headers.lookup n =
        (g.analyseLoops body s).headers.lookup n := by
      unfold analyseLoops
      dsimp only
      rw [h.loopHeaders_eq]
      by_cases hn : n ∈ g.loopHeaders g.cut.backEdges
      · rw [lookup_graph _ hn, lookup_graph _ hn, h.naturalLoop_eq he hn hloop hloop',
          writesAt_congr fun m hm => hbody m ((live_of_mem_loopHeaders he hn).trans
            (hloop.reaches he hn hm).1)]
      · have hmiss : ∀ f : Nat → NameSet, ((g.loopHeaders g.cut.backEdges).map
            fun n => (n, f n)).lookup n = none := by
          intro f
          rw [lookup_eq_none_iff]
          rintro _ hp
          obtain ⟨m, hm, rfl⟩ := mem_map.mp hp
          simpa using fun hnm : n = m => hn (hnm ▸ hm)
        rw [hmiss, hmiss]
    unfold LoopAnalysis.headerHavoc?
    rw [hlookup]

end Analysis

end Ways

end Agrees

theorem agrees_ofBody (hg : ofBody body = .ok g) (hg' : ofBody body' = .ok g')
    (hlen : body'.length = body.length) (hbody : ∀ v, g.Live v → body'[v]? = body[v]?) :
    g.Agrees g' := by
  refine ⟨by rw [size_ofBody hg, size_ofBody hg', hlen], by rw [entry_ofBody hg, entry_ofBody hg',
    hlen], fun v hv => ?_⟩
  have hlt : v < body.length := size_ofBody hg ▸ hv.lt_size fun _ => entry_lt_size hg
  obtain ⟨c, hc⟩ : ∃ c, body[v]? = some c := ⟨_, getElem?_eq_getElem hlt⟩
  have hc' := (hbody v hv).trans hc
  cases hjump : c.action.jump? with
  | none => rw [successors_of_not_jump hg hc hjump, successors_of_not_jump hg' hc' hjump, hlen]
  | some names =>
    rcases ofBody_eq_ok_iff.mp hg with ⟨labels, hlabels, _⟩
    rcases ofBody_eq_ok_iff.mp hg' with ⟨labels', hlabels', _⟩
    rcases successors_of_jump hg hc hlabels hjump with ⟨hsucc, hplaces⟩
    rw [hsucc, (successors_of_jump hg' hc' hlabels' hjump).1, map_congr_left fun x hx => ?_]
    -- The label stands at a live command, which the other body has too.
    obtain ⟨u, _, hu⟩ := hplaces x hx
    have hedge : u ∈ g.successors v := by
      rw [hsucc, mem_targets]
      exact mem_map.mpr ⟨x, hx, by simp [hu]⟩
    have hlabel := Body.mem_labelled_iff.mp ((Body.find?_labelTable hlabels).mp hu)
    rw [← hbody u (hv.trans (.single hedge))] at hlabel
    rw [hu, (Body.find?_labelTable hlabels').mpr (Body.mem_labelled_iff.mpr hlabel)]

end FlowGraph

/-- Whenever a body has a graph, its loops are made to forget what they write, and where
    a header that is no entry of a component reaches its natural loop, what is forgotten
    is written by commands of the component, which the entry reaches, and does not
    depend on dead commands. In a reducible graph, if no dead command leads to a live
    one, that is so everywhere. -/
theorem havocs_confined (body : Body) (g : FlowGraph) (s : Scope)
    (hg : FlowGraph.ofBody body = .ok g) :
    ∃ h, g.insertHavocs body s = .ok h ∧
      (∀ n vars, n < body.length →
        (g.analyseLoops body s).start n ≠ (g.analyseLoops body s).image n →
        (h.body[(g.analyseLoops body s).start n]?).map (·.action) = some (.havoc vars) →
        ((g.analyseLoops body s).entryHavoc? n = none → g.Encloses n) →
        ∀ x ∈ vars, ∃ m c, body[m]? = some c ∧ x ∈ s.writes c ∧ g.Live m ∧
          g.Reaches n m ∧ g.Reaches m n) ∧
      (∀ body' g', FlowGraph.ofBody body' = .ok g' → body'.length = body.length →
        (∀ v, g.Live v → body'[v]? = body[v]?) → ∀ n,
        ((g.analyseLoops body s).entryHavoc? n = none → g.Encloses n ∧ g'.Encloses n) →
        (g'.analyseLoops body' s).havocSet? n = (g.analyseLoops body s).havocSet? n) ∧
      (g.Reducible → (∀ u v, v ∈ g.successors u → g.Live v → g.Live u) → ∀ n, g.Encloses n) := by
  rcases FlowGraph.insertHavocs_eq_ok hg s with ⟨h, hok, hbody, _⟩
  have he : ∀ e, g.entry = some e → e < g.size := fun _ => FlowGraph.entry_lt_size hg
  refine ⟨h, hok, ?_, ?_, ?_⟩
  · intro n vars hn hput hhavoc hloop x hx
    obtain ⟨writes, hwrites⟩ := Option.isSome_iff_exists.mp
      ((g.analyseLoops body s).start_ne_image.mp hput)
    have hstart := (g.analyseLoops body s).getElem?_start (getElem?_eq_getElem hn) hwrites
    rw [hbody] at hhavoc
    obtain rfl : writes.toList = vars := by simpa using hstart.symm.trans hhavoc
    exact FlowGraph.exists_write he hwrites hloop hx
  · intro body' g' hg' hlen hsame n hloop
    exact (FlowGraph.agrees_ofBody hg hg' hlen hsame).havocSet?_eq he hsame hloop
  · intro hred hdead n
    exact hred.encloses hdead he n

/-- A loop that is not left, and a command after it. -/
def endlessBody : Body :=
  [{ labels := ["top"], action := .havoc ["x"] }, { action := .goto ["top"] },
    { action := .havoc ["y"] }]

def endlessGraph : FlowGraph :=
  .ofEdges 3 (some 0) [(0, 1), (1, 0)]

theorem havocs_confined_endless : FlowGraph.ofBody endlessBody = .ok endlessGraph ∧
    ∃ h, endlessGraph.insertHavocs endlessBody {} = .ok h ∧
      (h.body[0]?).map (·.action) = some (.havoc ["x"]) ∧
      ∃ m c, endlessBody[m]? = some c ∧ "x" ∈ ({} : Scope).writes c ∧ endlessGraph.Live m ∧
        endlessGraph.Reaches 0 m ∧ endlessGraph.Reaches m 0 := by
  have hg : FlowGraph.ofBody endlessBody = .ok endlessGraph := rfl
  rcases havocs_confined endlessBody endlessGraph {} hg with ⟨h, hok, hwritten, _, hencloses⟩
  have hred : endlessGraph.Reducible := by
    intro b hb e hentry hne
    obtain rfl : b = (1, 0) := mem_singleton.mp (show b ∈ [(1, 0)] from hb)
    exact absurd (Option.some.inj hentry).symm hne
  have hlive : ∀ u v, v ∈ endlessGraph.successors u → endlessGraph.Live v →
      endlessGraph.Live u := by
    intro u v hv _
    have hlt : u < 3 := FlowGraph.lt_size_of_edge hv
    obtain rfl | rfl | rfl : u = 0 ∨ u = 1 ∨ u = 2 := by omega
    · exact ⟨0, rfl, .refl⟩
    · exact ⟨0, rfl, .single (by decide)⟩
    · cases hv
  have hhavoc : (h.body[0]?).map (·.action) = some (.havoc ["x"]) := by
    have hfirst : (endlessGraph.insertHavocs endlessBody {}).map
        (fun h => (h.body[0]?).map (·.action)) = .ok (some (.havoc ["x"])) := rfl
    rw [hok] at hfirst
    exact Except.ok.inj hfirst
  refine ⟨hg, h, hok, hhavoc, ?_⟩
  exact hwritten 0 ["x"] (by decide) (by decide) hhavoc (fun _ => hencloses hred hlive 0) "x"
    (by decide)

end Vouch
