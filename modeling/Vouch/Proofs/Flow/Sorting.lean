import Vouch.Proofs.Flow.Acyclic

/-!
# Sorting Decides Whether There Is a Cycle

Whatever edges a graph is made from, each node is listed once among the predecessors of
what it leads to. So the numbers that sorting starts with are the numbers of edges that
it will meet, and counting down never starts from zero.

## Main definitions

* `FlowGraph.Sorting.run?`: Sorting that gives up if it does.

## Theorems

* `FlowGraph.topologicalOrder_decides`: There is an order exactly if there is no cycle.
-/

namespace Vouch

open List

namespace FlowGraph

variable {g : FlowGraph} {u v : Nat} {order : List Nat}

/-- All edges, by their sources. -/
def edgeList (g : FlowGraph) : List (Nat × Nat) :=
  g.nodes.flatMap fun u => (g.successors u).map (u, ·)

theorem sources_eq_predecessors (g : FlowGraph) (v : Nat) :
    (g.edgeList.filter (·.2 = v)).map (·.1) = g.predecessors v := by
  -- There is at most one edge from each node.
  have hone : ∀ u, (((g.successors u).map (u, ·)).filter (·.2 = v)).map (·.1) =
      if (g.successors u).contains v then [u] else [] := by
    intro u
    rw [filter_map, map_map]
    change ((g.successors u).filter (· = v)).map (fun _ => u) = _
    rw [filter_eq, (g.nodup_successors u).count]
    by_cases hv : v ∈ g.successors u
    · simp [hv]
    · simp [hv]
  have hfilter : ∀ us : List Nat,
      us.flatMap (fun u => if (g.successors u).contains v then [u] else []) =
        us.filter fun u => (g.successors u).contains v := by
    intro us
    induction us with
    | nil => rfl
    | cons u us ih =>
      rw [flatMap_cons, ih, filter_cons]
      split <;> rfl
  rw [edgeList, filter_flatMap, map_flatMap, flatMap_congr fun u _ => hone u, hfilter,
    predecessors]

theorem mem_successors_ofEdges {size : Nat} {entry : Option Nat} {edges : List (Nat × Nat)} :
    v ∈ (ofEdges size entry edges).successors u ↔ (u, v) ∈ edges ∧ u < size ∧ v < size := by
  by_cases hu : u < size
  · simp [successors, ofEdges, hu]
  · simp [successors, ofEdges, hu]

namespace Sorting

/-- One predecessor of a node has been taken, if it waits for any. -/
def release? (s : Sorting) (v : Nat) : Option Sorting :=
  if 0 < s.waiting.getD v 0 then some (s.release v) else none

/-- Sort, and give up when a node is released that waits for nothing. -/
def run? (g : FlowGraph) : (fuel : Nat) → Sorting → Option Sorting
  | 0, s => some s
  | fuel + 1, s =>
    match s.ready with
    | [] => some s
    | v :: rest => do
      let s ← (g.successors v).foldlM release? { s with ready := rest, taken := s.taken ++ [v] }
      run? g fuel s

variable {s : Sorting}

theorem Sound.release?_eq {w : Nat} {rest : List Nat} (h : Sound g (w :: rest) s)
    (hw : w < g.size) : s.release? w = some (s.release w) := by
  have hcount := h.waiting w hw
  rw [if_pos mem_cons_self] at hcount
  exact if_pos (by omega)

theorem Sound.releaseAll?_eq : ∀ {rest : List Nat} {s : Sorting}, Sound g rest s → rest.Nodup →
    (∀ w ∈ rest, w < g.size) → rest.foldlM release? s = some (rest.foldl Sorting.release s)
  | [], _, _, _, _ => rfl
  | w :: rest, s, h, hnodup, hlt => by
    rw [nodup_cons] at hnodup
    have hw := hlt w mem_cons_self
    rw [foldlM_cons, h.release?_eq hw]
    exact (h.release hw hnodup.1).releaseAll?_eq hnodup.2
      (forall_mem_cons.mp hlt).2

theorem Sound.run?_eq : ∀ {fuel : Nat} {s : Sorting}, Sound g [] s →
    run? g fuel s = some (Sorting.run g fuel s)
  | 0, _, _ => rfl
  | fuel + 1, s, h => by
    cases hready : s.ready with
    | nil => simp only [run?, Sorting.run, hready]
    | cons v ready =>
      have htake := h.take hready
      have hlt : ∀ w ∈ g.successors v, w < g.size := fun w hw => lt_size_of_mem_successors hw
      simp only [run?, Sorting.run, hready]
      rw [htake.releaseAll?_eq (g.nodup_successors v) hlt]
      exact (htake.releaseAll (g.nodup_successors v) hlt).run?_eq

end Sorting

theorem Sorted.sublist_of_edge (h : g.Sorted order) (hv : v ∈ g.successors u) :
    [u, v].Sublist order := by
  obtain ⟨p, q, rfl⟩ := append_of_mem ((h.complete u).mpr (lt_size_of_edge hv))
  have hq := h.after rfl hv
  exact (cons_sublist_cons.mpr (singleton_sublist.mpr hq)).trans
    (sublist_append_right _ _)

theorem Sorted.acyclic (h : g.Sorted order) : g.Acyclic := by
  intro v hcycle
  obtain ⟨w, hw, _⟩ := Relation.TransGen.head'_iff.mp hcycle
  have hv : v ∈ order := (h.complete v).mpr (lt_size_of_edge hw)
  exact not_transGen_of_before (fun p x q hsplit y hy => h.after hsplit hy) v hv hcycle

/-- Whatever edges a graph is made from, repeated ones, loops and edges from or to
    nodes that do not exist among them, it has the edges between its nodes once
    each, in both directions. Sorting never counts below zero, and it finds no order
    exactly if there is a cycle. An order has every node once and the source of
    every edge before its target. -/
theorem topologicalOrder_decides (size : Nat) (entry : Option Nat) (edges : List (Nat × Nat)) :
    let g := ofEdges size entry edges
    (∀ u v, v ∈ g.successors u ↔ (u, v) ∈ edges ∧ u < size ∧ v < size) ∧
    (∀ u v, u ∈ g.predecessors v ↔ v ∈ g.successors u) ∧
    (∀ v, (g.successors v).Nodup ∧ (g.predecessors v).Nodup ∧
      g.predecessors v = (g.edgeList.filter (·.2 = v)).map (·.1)) ∧
    (∀ fuel, Sorting.run? g fuel g.startSorting = some (Sorting.run g fuel g.startSorting)) ∧
    (g.topologicalOrder? = none ↔ ∃ v, Relation.TransGen (fun u v => v ∈ g.successors u) v v) ∧
    ∀ order ∈ g.topologicalOrder?, order.Perm (List.range size) ∧
      ∀ u v, v ∈ g.successors u → [u, v].Sublist order := by
  intro g
  have hsize : g.size = size := by simp [g, ofEdges, FlowGraph.size]
  refine ⟨fun u v => mem_successors_ofEdges, fun u v => mem_predecessors, fun v =>
    ⟨g.nodup_successors v, g.nodup_predecessors v, (g.sources_eq_predecessors v).symm⟩,
    fun fuel => (sound_startSorting g).run?_eq, ?_, fun order horder => ?_⟩
  · have hacyclic : g.Acyclic ↔ ∃ order, g.topologicalOrder? = some order := by
      refine ⟨exists_topologicalOrder, ?_⟩
      rintro ⟨order, h⟩
      exact (sorted_of_topologicalOrder? h).acyclic
    rw [Option.eq_none_iff_forall_ne_some, ← not_exists, ← hacyclic]
    exact not_forall_not
  · have hsorted := sorted_of_topologicalOrder? (Option.mem_def.mp horder)
    refine ⟨(perm_ext_iff_of_nodup hsorted.nodup nodup_range).mpr fun v => ?_,
      fun u v hv => hsorted.sublist_of_edge hv⟩
    rw [hsorted.complete, hsize, mem_range]

/-- Twice the same edge, a loop, and an edge to a node that does not exist. -/
example : (ofEdges 3 (some 0) [(2, 1), (2, 1), (0, 2), (1, 5)]).topologicalOrder? = some [0, 2, 1] ∧
    (ofEdges 3 (some 0) [(2, 1), (1, 1)]).topologicalOrder? = none := by
  decide +kernel

end FlowGraph

end Vouch
