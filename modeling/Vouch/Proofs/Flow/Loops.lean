import Vouch.Flow.LoopHavoc
import Vouch.Proofs.Flow.Components

/-!
# What Is Forgotten Covers the Loop

Before the target of an edge that closes a cycle, everything is forgotten that the
commands of the cycle write. At an entry of a component these are the writes of the
component, and nodes on a common cycle are in one component.

## Main definitions

* `FlowGraph.Around`: A way that does not come to a node.
* `LoopAnalysis.forgotten`: What is forgotten before a node.

## Theorems

* `FlowGraph.mem_naturalLoop_iff`: What is in a natural loop.
* `FlowGraph.writes_forgotten`: What a cycle writes is forgotten.
-/

namespace Vouch

open List

namespace FlowGraph

variable {g : FlowGraph}

/-- The second node can be reached from the first without coming to `h` on the
    way. The first may be `h` itself. -/
def Around (g : FlowGraph) (h : Nat) : Nat → Nat → Prop :=
  Relation.ReflTransGen fun u v => v ∈ g.successors u ∧ v ≠ h

theorem Around.reaches {h u v : Nat} (huv : g.Around h u v) : g.Reaches u v := by
  induction huv with
  | refl => exact .refl
  | tail _ hstep ih => exact ih.tail hstep.1

theorem exists_of_mem_loopHeaders {closing : List (Nat × Nat)} {v : Nat}
    (h : v ∈ g.loopHeaders closing) : v < g.size ∧ ∃ u, (u, v) ∈ closing := by
  rcases mem_filter.mp h with ⟨hlt, hany⟩
  obtain ⟨⟨u, w⟩, hback, hw⟩ := any_eq_true.mp hany
  obtain rfl : w = v := by simpa using hw
  exact ⟨mem_range.mp hlt, u, hback⟩

section NaturalLoops

variable {closing : List (Nat × Nat)} {h u : Nat}

theorem nodup_latches (hnodup : closing.Nodup) :
    (((closing.filter (·.2 == h)).map (·.1)).filter (· != h)).Nodup := by
  refine Nodup.filter _ (Nodup.map_on (fun x hx y hy hxy => ?_) (hnodup.filter _))
  have hx := (mem_filter.mp hx).2
  have hy := (mem_filter.mp hy).2
  simp only [beq_iff_eq] at hx hy
  exact Prod.ext hxy (hx.trans hy.symm)

/-- The natural loop of a header is the header and what lies on ways to its closing
    edges that do not come to the header. -/
theorem mem_naturalLoop_iff (hnodup : closing.Nodup)
    (hedges : ∀ e ∈ closing, e.2 ∈ g.successors e.1) (hh : h < g.size) {n : Nat} :
    n ∈ g.naturalLoop closing (fun v => g.predecessorTable.getD v []) h ↔
      n = h ∨ ∃ u, (u, h) ∈ closing ∧ g.Around h n u := by
  have hlt : ∀ {u}, (u, h) ∈ closing → u < g.size := fun hu => lt_size_of_edge (hedges _ hu)
  unfold naturalLoop
  simp only [predecessorTable_getD]
  set latches := ((closing.filter (·.2 == h)).map (·.1)).filter (· != h) with hdef
  have hlatch : ∀ {x}, x ∈ latches ↔ (x, h) ∈ closing ∧ x ≠ h := by simp [hdef]
  have hfound : n ∈ (g.nodes.filter fun v =>
      (explore g.predecessors g.size latches (.ofList (h :: latches))).contains v) ↔
        n < g.size ∧ n ∈ explore g.predecessors g.size latches (.ofList (h :: latches)) := by
    rw [← Std.TreeSet.contains_iff_mem, ← mem_range]
    exact mem_filter
  rw [hfound]
  clear hfound
  constructor
  · rintro ⟨_, hn⟩
    -- The search goes back from the latches, and the header is found without being looked at.
    have hsound := sound_explore
      (P := fun x => x ≠ h ∧ ∃ u, (u, h) ∈ closing ∧ g.Around h x u) (fun v hv w hw => ?_)
      (fun v (hv : v = h) => ?_) (fun v hv => ?_) (fun v hv => ?_) n hn
    · exact hsound.imp_right And.right
    · rcases hv with ⟨hne, u, hu, haround⟩
      by_cases hwh : w = h
      · exact .inl hwh
      · exact .inr ⟨hwh, u, hu, .head ⟨mem_predecessors.mp hw, hne⟩ haround⟩
    · exact mem_ofList.mpr (hv ▸ mem_cons_self)
    · exact ⟨(hlatch.mp hv).2, v, (hlatch.mp hv).1, .refl⟩
    · rcases mem_cons.mp (mem_ofList.mp hv) with hv | hv
      · exact .inl hv
      · exact .inr ⟨(hlatch.mp hv).2, v, (hlatch.mp hv).1, .refl⟩
  · -- The search begins with the latches to look at, and the header is found already.
    have hfuel : latches.length + (unfound g.size (.ofList (h :: latches))).card ≤ g.size := by
      have hcard := card_unfound_ofList (n := g.size)
        (nodup_cons.mpr ⟨fun hmem => (hlatch.mp hmem).2 rfl, nodup_latches hnodup⟩)
        (forall_mem_cons.mpr ⟨hh, fun x hx => hlt (hlatch.mp hx).1⟩)
      rw [length_cons] at hcard
      omega
    have hclosed : ∀ v ∈ explore g.predecessors g.size latches (.ofList (h :: latches)), v = h ∨
        ∀ w ∈ g.predecessors v,
          w ∈ explore g.predecessors g.size latches (.ofList (h :: latches)) :=
      closed_explore (fun v w hw => lt_size_of_edge (mem_predecessors.mp hw))
        (fun v => g.nodup_predecessors v)
        (fun v hv hnot => .inl ((mem_cons.mp (mem_ofList.mp hv)).resolve_right hnot)) hfuel
    rintro (rfl | ⟨u, hu, hn⟩)
    · exact ⟨hh, mem_explore (mem_ofList.mpr mem_cons_self)⟩
    · -- Back from the edge: the source is found, and before every node found there
      -- are nodes found, except before the header.
      induction hn using Relation.ReflTransGen.head_induction_on with
      | refl =>
        refine ⟨hlt hu, mem_explore (mem_ofList.mpr (mem_cons.mpr ?_))⟩
        by_cases huh : u = h
        · exact .inl huh
        · exact .inr (hlatch.mpr ⟨hu, huh⟩)
      | head hstep _ ih =>
        exact ⟨lt_size_of_edge hstep.1,
          (hclosed _ ih.2).resolve_left hstep.2 _ (mem_predecessors.mpr hstep.1)⟩

end NaturalLoops

end FlowGraph

section Writes

variable {nodes : List Nat} {x : String} {a : LoopAnalysis} {v : Nat} {writes : NameSet}

theorem Scope.exists_of_mem_writesAt {s : Scope} {body : Body} (hx : x ∈ s.writesAt body nodes) :
    ∃ c ∈ body, x ∈ s.writes c := by
  rcases mem_writesAt_iff.mp hx with ⟨n, _, c, hc, hx⟩
  exact ⟨c, mem_of_getElem? hc, hx⟩

/-- What is forgotten before a node. -/
def LoopAnalysis.forgotten (a : LoopAnalysis) (v : Nat) : NameSet :=
  (a.havocSet? v).getD ∅

variable {g : FlowGraph} {body : Body} {s : Scope} {e : Nat} (hentry : g.entry = some e)
  (he : e < g.size)

theorem NameSet.isEmpty_eq_false {t : NameSet} (hx : x ∈ t) : t.isEmpty = false := by
  rw [isEmpty, isEmpty_eq_false_iff_exists_mem]
  exact ⟨x, hx⟩

theorem LoopAnalysis.exists_of_entryHavoc? (h : a.entryHavoc? v = some writes) :
    v ∈ a.entryPoints ∧ ∃ k, a.components.component? v = some k ∧ 1 < a.size k ∧
      a.writes[k]? = some writes := by
  simp only [entryHavoc?, Option.bind_eq_bind, Option.bind_eq_some_iff, Option.pure_def,
    Option.some.injEq, Option.guard_eq_some', contains_iff_mem, Bool.and_eq_true,
    decide_eq_true_eq] at h
  rcases h with ⟨_, hv, k, hk, writes', hwrites, _, ⟨hsize, _⟩, rfl⟩
  exact ⟨hv, k, hk, hsize, hwrites⟩

theorem LoopAnalysis.headerHavoc?_of_mem (h : a.headers.lookup v = some writes) (hx : x ∈ writes) :
    a.headerHavoc? v = some writes := by
  simp [headerHavoc?, h, NameSet.isEmpty_eq_false hx]

theorem LoopAnalysis.mem_of_headerHavoc? (h : a.headerHavoc? v = some writes) :
    (v, writes) ∈ a.headers := by
  simp only [headerHavoc?, Option.bind_eq_bind, Option.bind_eq_some_iff, Option.pure_def,
    Option.some.injEq] at h
  rcases h with ⟨_, hlookup, _, _, rfl⟩
  rcases lookup_eq_some_iff.mp hlookup with ⟨_, _, hheaders, _⟩
  simp [hheaders]

theorem FlowGraph.havocSet?_cases {vars : NameSet}
    (h : (g.analyseLoops body s).havocSet? v = some vars) :
    (v ∈ (g.analyseLoops body s).entryPoints ∧ ∃ k, g.components.component? v = some k ∧
      1 < (g.analyseLoops body s).size k ∧ vars = s.writesAt body (g.components.members k)) ∨
    ((g.analyseLoops body s).entryHavoc? v = none ∧ v ∈ g.loopHeaders g.cut.backEdges ∧
      vars = s.writesAt body (g.naturalLoop g.cut.backEdges
        (fun v => g.predecessorTable.getD v []) v)) := by
  unfold LoopAnalysis.havocSet? at h
  cases hentryHavoc : (g.analyseLoops body s).entryHavoc? v with
  | some writes =>
    rw [hentryHavoc] at h
    obtain rfl : writes = vars := by simpa using h
    rcases LoopAnalysis.exists_of_entryHavoc? hentryHavoc with ⟨hv, k, hk, hsize, hwrites⟩
    exact .inl ⟨hv, k, hk, hsize, eq_writesAt hwrites⟩
  | none =>
    rw [hentryHavoc] at h
    rcases mem_map.mp (LoopAnalysis.mem_of_headerHavoc? h) with ⟨_, hmem, heq⟩
    cases heq
    exact .inr ⟨rfl, hmem, rfl⟩

theorem FlowGraph.exists_of_havocSet? {vars : NameSet}
    (h : (g.analyseLoops body s).havocSet? v = some vars) :
    v < g.size ∧ ∃ nodes, vars = s.writesAt body nodes := by
  rcases havocSet?_cases h with ⟨hv, _, _, _, hvars⟩ | ⟨_, hv, hvars⟩
  · exact ⟨mem_range.mp (mem_filter.mp hv).1, _, hvars⟩
  · exact ⟨mem_range.mp (mem_filter.mp hv).1, _, hvars⟩

theorem FlowGraph.cycle_of_havocSet? (he : ∀ e, g.entry = some e → e < g.size) {vars : NameSet}
    (h : (g.analyseLoops body s).havocSet? v = some vars) :
    g.Live v ∧ Relation.TransGen (fun u v => v ∈ g.successors u) v v := by
  rcases havocSet?_cases h with ⟨_, k, hk, hsize, _⟩ | ⟨_, hv, _⟩
  · -- Another node of the component is on a way there and back.
    have hfound := Components.found_components he
    obtain ⟨u, hu, hne⟩ : ∃ u ∈ g.components.members k, u ≠ v := by
      by_contra! hall
      exact absurd (nodup_iff_count_le_one.mp (hfound.nodup k) v) (by
        rw [count_eq_length.mpr fun u hu => (hall u hu).symm]
        exact Nat.not_le_of_lt hsize)
    have hways := (hfound.connected v u k k hk ((hfound.labelled u k).mpr hu)).mp rfl
    refine ⟨hfound.live v k hk, ?_⟩
    exact (Relation.reflTransGen_iff_eq_or_transGen.mp hways.1).resolve_left hne |>.trans_left
      hways.2
  · rcases exists_of_mem_loopHeaders hv with ⟨_, u, hback⟩
    rcases closes_cycle he hback with ⟨hlive, hedge, hways⟩
    exact ⟨hlive.trans (.single hedge), .tail' hways hedge⟩

include hentry he in
/-- Before the target of an edge that closes a cycle, the writes of the commands
    on the cycle are forgotten. -/
theorem FlowGraph.writes_forgotten {u h n : Nat} (hclosing : (u, h) ∈ g.walk.closing)
    (hreach : g.Reaches e h) (hhn : g.Around h h n) (hnu : g.Around h n u) {c : Command}
    (hc : body[n]? = some c) (hx : x ∈ s.writes c) : x ∈ (g.analyseLoops body s).forgotten h := by
  have hedges : ∀ e' ∈ g.cut.backEdges, e'.2 ∈ g.successors e'.1 := fun e' he' =>
    mem_successors_of_closing hentry he (mem_reverse.mp he')
  have hback : (u, h) ∈ g.cut.backEdges := mem_reverse.mpr hclosing
  have hlt : h < g.size := lt_size_of_mem_successors (hedges _ hback)
  -- The node is in the natural loop of the header.
  have hloop := (mem_naturalLoop_iff (nodup_reverse.mpr (nodup_closing hentry he)) hedges
    hlt).mpr (.inr ⟨u, hback, hnu⟩)
  have hheader : h ∈ g.loopHeaders g.cut.backEdges := by
    refine mem_filter.mpr ⟨mem_range.mpr hlt, ?_⟩
    exact any_eq_true.mpr ⟨(u, h), hback, by simp⟩
  have hwrites : x ∈ s.writesAt body (g.naturalLoop g.cut.backEdges
      (fun v => g.predecessorTable.getD v []) h) := Scope.mem_writesAt_iff.mpr ⟨_, hloop, _, hc, hx⟩
  have hsome := LoopAnalysis.headerHavoc?_of_mem (a := g.analyseLoops body s)
    (lookup_graph _ hheader) hwrites
  unfold LoopAnalysis.forgotten LoopAnalysis.havocSet?
  cases hentryHavoc : (g.analyseLoops body s).entryHavoc? h with
  | none =>
    -- What the header forgets counts only if it is no entry of its component.
    rw [hsome]
    exact hwrites
  | some writes =>
    -- It is in the component of the header, too.
    rcases LoopAnalysis.exists_of_entryHavoc? hentryHavoc with ⟨_, k, hk, _, hwrites'⟩
    have hbound : ∀ e, g.entry = some e → e < g.size := by simpa [hentry] using he
    have hlive : g.Live h := ⟨e, hentry, hreach⟩
    have hcomp : g.components.component? n = some k := by
      rw [← hk]
      exact (component?_eq_iff hbound (hlive.trans hhn.reaches) hlive).mpr
        ⟨hnu.reaches.tail (hedges _ hback), hhn.reaches⟩
    have hmember := ((Components.found_components hbound).labelled n k).mp hcomp
    rw [eq_writesAt hwrites']
    exact Scope.mem_writesAt_iff.mpr ⟨_, hmember, _, hc, hx⟩

end Writes

end Vouch
