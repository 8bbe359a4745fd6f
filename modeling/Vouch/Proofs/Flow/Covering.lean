import Vouch.Proofs.Flow.Insertion

/-!
# Closing Edges Lead to What Forgets the Loop

What a loop writes is found on the graph before commands are put in, and the edges that
are cut are those of the graph after. A way in the new graph passes corridor after
corridor, and the nodes whose corridors it passes are a way in the old graph.

## Main definitions

* `LoopAnalysis.WritesBetween`: A name is written on the way to a closing edge.

## Theorems

* `closing_edges_covered`: Then it is forgotten where the edge leads.
-/

namespace Vouch

open List

namespace FlowGraph

variable {g g' : FlowGraph}

theorem Corridor.mem_of_edge {first last x y : Nat} {places : List Nat}
    (h : Corridor g first places last) (hx : x ∈ places) (hne : x ≠ last)
    (hy : y ∈ g.successors x) : y ∈ places := by
  induction h with
  | here v => exact absurd (mem_singleton.mp hx) hne
  | step hsucc _ hrest ih =>
    rcases mem_cons.mp hx with rfl | hx
    · rw [hsucc, mem_singleton] at hy
      exact mem_cons_of_mem _ (hy ▸ hrest.first_mem)
    · exact mem_cons_of_mem _ (ih hx hne)

namespace Embedding

variable (E : Embedding g g')

theorem out_of_reaches {x y : Nat} (hx : E.Out x) (h : g'.Reaches x y) : E.Out y := by
  induction h with
  | refl => exact hx
  | tail _ hy ih => exact (E.forward _ ih _ hy).1

theorem around_of_around {h u v x y : Nat} (hxy : g'.Around (E.start h) x y) (hu : u < g.size)
    (hx : x ∈ E.places u) (hy : y ∈ E.places v) : g.Around h u v := by
  induction hxy using Relation.ReflTransGen.head_induction_on generalizing u with
  | refl => exact E.disjoint hx hy ▸ .refl
  | @head x z hxz hzy ih =>
    by_cases hlast : x = E.image u
    · obtain ⟨out, hout, hsucc⟩ := E.successors_image u hu
      have hz := hxz.1
      rw [hlast, hsucc, mem_append, mem_map] at hz
      rcases hz with ⟨w, hw, rfl⟩ | hz
      · -- The next corridor begins.
        have hwsize := lt_size_of_mem_successors hw
        have hne : w ≠ h := fun heq => hxz.2 (congrArg E.start heq)
        exact .head ⟨hw, hne⟩ (ih hwsize (E.corridor w hwsize).first_mem)
      · -- There is no way back from the way out.
        have hreaches : g'.Reaches z y := Around.reaches hzy
        exact absurd (E.out_of_reaches (hout z hz) hreaches) (E.notOut hy)
    · exact ih hu ((E.corridor u hu).mem_of_edge hx hlast hxz.1)

end Embedding

end FlowGraph

/-- On a way from `t` to `u` that does not come back to `t` there is a command of the old
    body that writes the name. -/
def LoopAnalysis.WritesBetween (a : LoopAnalysis) (g' : FlowGraph) (body : Body) (s : Scope) (t u : Nat)
    (x : String) : Prop :=
  ∃ v c, body[v]? = some c ∧ g'.Around t t (a.image v) ∧ g'.Around t (a.image v) u ∧ x ∈ s.writes c

section Closing

variable {body : Body} {g g' : FlowGraph} {s : Scope} (hg : FlowGraph.ofBody body = .ok g)
  (hg' : FlowGraph.ofBody ((g.analyseLoops body s).spliced body) = .ok g')
include hg hg'

/-- An edge that is cut leads to what stands for the target of an edge cut before, where
    the writes on the way back are forgotten. -/
theorem exists_of_mem_backEdges {u t : Nat} (h : (u, t) ∈ g'.cut.backEdges) :
    ∃ v < body.length, t = (g.analyseLoops body s).start v ∧
      ∀ x, (g.analyseLoops body s).WritesBetween g' body s t u x →
        x ∈ (g.analyseLoops body s).forgotten v := by
  have hX : FlowGraph.ofBody ((g.analyseLoops body s).expansion body).result = .ok g' :=
    (g.analyseLoops body s).result_expansion body ▸ hg'
  rw [Body.Expansion.backEdges_cut hg hX, mem_map] at h
  rcases h with ⟨⟨l, v⟩, hback, heq⟩
  rcases Prod.mk.inj heq with ⟨rfl, rfl⟩
  have he : ∀ e, g.entry = some e → e < g.size := fun _ => FlowGraph.entry_lt_size hg
  have hclosing := mem_reverse.mp hback
  rcases FlowGraph.closes_cycle he hback with ⟨hlive, hedge, _⟩
  obtain ⟨e, hentry, hreach⟩ := hlive.trans (.single hedge)
  have hv := FlowGraph.lt_size_of_mem_successors hedge
  have hl := FlowGraph.lt_size_of_edge hedge
  have hsize := FlowGraph.size_ofBody hg
  refine ⟨v, hsize ▸ hv, (g.analyseLoops body s).start_expansion (Nat.le_of_lt (hsize ▸ hv)), ?_⟩
  rintro x ⟨n, c, hc, htn, hnl, hx⟩
  -- The way there and back is one of the old graph.
  have hn : n < body.length := (List.getElem?_eq_some_iff.mp hc).1
  rw [← (g.analyseLoops body s).image_expansion hn] at htn hnl
  let E := Body.Expansion.embedding hg hX
  have hlast : ∀ w < g.size, E.image w ∈ E.places w := fun w hw => (E.corridor w hw).last_mem
  have hthere := E.around_of_around htn hv (E.corridor v hv).first_mem (hlast n (hsize ▸ hn))
  have hback := E.around_of_around hnl (hsize ▸ hn) (hlast n (hsize ▸ hn)) (hlast l hl)
  exact FlowGraph.writes_forgotten hentry (he e hentry) hclosing hreach hthere hback hc hx

end Closing

/-- Every edge that is cut after commands were put in leads to a command that forgets what
    is written on the way back. If old commands on ways from the target of the edge to its
    source, not coming back to the target, write anything, then the target is a command put
    in that forgets names, and among these, which are in order, is everything written. -/
theorem closing_edges_covered (body : Body) (g : FlowGraph) (s : Scope)
    (hg : FlowGraph.ofBody body = .ok g) :
    ∃ h, g.insertHavocs body s = .ok h ∧
      (∀ v c, body[v]? = some c →
        (h.body[(g.analyseLoops body s).image v]?).map (·.action) = some c.action) ∧
      ∀ u t, (u, t) ∈ h.graph.cut.backEdges →
        (∃ x, (g.analyseLoops body s).WritesBetween h.graph body s t u x) →
        (∀ v, (g.analyseLoops body s).image v ≠ t) ∧
          ∃ vars, (h.body[t]?).map (·.action) = some (.havoc vars) ∧ vars.Pairwise (· < ·) ∧
            ∀ x, (g.analyseLoops body s).WritesBetween h.graph body s t u x → x ∈ vars := by
  rcases FlowGraph.insertHavocs_eq_ok hg s with ⟨h, hok, hbody, hgraph⟩
  refine ⟨h, hok, fun v c hc => hbody ▸ LoopAnalysis.getElem?_image _ hc, ?_⟩
  rintro u t hback ⟨x, hx⟩
  rcases exists_of_mem_backEdges hg (hbody ▸ hgraph) hback with ⟨v, hv, rfl, hforgotten⟩
  have hmem := hforgotten x hx
  unfold LoopAnalysis.forgotten at hforgotten hmem
  cases hset : (g.analyseLoops body s).havocSet? v with
  | none => simp [hset] at hmem
  | some vars =>
    rw [hset] at hforgotten
    refine ⟨LoopAnalysis.image_ne_start _ (by simp [hset]), vars.toList, ?_, vars.sorted,
      hforgotten⟩
    rw [hbody]
    exact LoopAnalysis.getElem?_start _ (getElem?_eq_getElem hv) hset

/-- A loop in a loop. The inner one writes one name, the outer one another as well. -/
def nestedBody : Body :=
  [{ labels := ["outer"], action := .havoc ["y"] }, { labels := ["inner"], action := .havoc ["x"] },
    { action := .goto ["inner", "outer"] }]

def nestedGraph : FlowGraph :=
  .ofEdges 3 (some 0) [(0, 1), (1, 2), (2, 1), (2, 0)]

theorem closing_edges_covered_nested : FlowGraph.ofBody nestedBody = .ok nestedGraph ∧
    ∃ h, nestedGraph.insertHavocs nestedBody {} = .ok h ∧
      h.graph.cut.backEdges = [(4, 2), (4, 0)] ∧
      ∃ vars, (h.body[2]?).map (·.action) = some (.havoc vars) ∧ "x" ∈ vars := by
  have hg : FlowGraph.ofBody nestedBody = .ok nestedGraph := rfl
  rcases closing_edges_covered nestedBody nestedGraph {} hg with ⟨h, hok, _, hcovered⟩
  have hgraph : h.graph = .ofEdges 5 (some 0) [(0, 1), (1, 2), (2, 3), (3, 4), (4, 2), (4, 0)] := by
    have hrun : ∃ h, nestedGraph.insertHavocs nestedBody {} = .ok h ∧
        h.graph = .ofEdges 5 (some 0) [(0, 1), (1, 2), (2, 3), (3, 4), (4, 2), (4, 0)] :=
      ⟨_, rfl, rfl⟩
    rcases hrun with ⟨h', hok', hgraph⟩
    obtain rfl : h' = h := Except.ok.inj (hok'.symm.trans hok)
    exact hgraph
  have hback : h.graph.cut.backEdges = [(4, 2), (4, 0)] := by
    rw [hgraph]
    decide
  -- From the command put in before the inner loop, its command comes next and the jump then.
  have hwrites : (nestedGraph.analyseLoops nestedBody {}).WritesBetween h.graph nestedBody {} 2 4
      "x" := by
    refine ⟨1, _, rfl, .single ?_, .single ?_, by decide⟩
    · rw [hgraph]
      decide
    · rw [hgraph]
      decide
  rcases hcovered 4 2 (by simp [hback]) ⟨_, hwrites⟩ with ⟨_, vars, hvars, _, hmem⟩
  exact ⟨hg, h, hok, hback, vars, hvars, hmem "x" hwrites⟩

end Vouch
