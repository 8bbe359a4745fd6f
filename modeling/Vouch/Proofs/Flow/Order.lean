import Mathlib.Data.List.Infix
import Mathlib.Data.List.Nodup
import Mathlib.Data.List.Perm.Subperm
import Vouch.Flow.Order

/-!
# The Order Is Topological

Sorting counts down how many predecessors of each node have not been taken. The
count is right at every moment, also in the middle of releasing the successors of the
node taken last: those still to be released are a parameter of the invariant. A node
that is about to be released still waits, so no node becomes ready twice.

## Main definitions

* `FlowGraph.Sorted`: An order of all nodes in which edges lead forward.
* `FlowGraph.Sorting.Sound`: The counts are right.

## Theorems

* `FlowGraph.Sorting.Sound.release`: A release keeps the counts right.
* `FlowGraph.sorted_of_topologicalOrder?`: What sorting gives is sorted.
-/

namespace Vouch

open List

namespace FlowGraph

variable {g : FlowGraph} {u v : Nat} {order : List Nat}

theorem successors_eq_nil (hu : ¬ u < g.size) : g.successors u = [] := by
  unfold successors size at *
  simp [hu]

theorem lt_size_of_edge (h : v ∈ g.successors u) : u < g.size := by
  by_contra hu
  rw [successors_eq_nil hu] at h
  simp at h

theorem mem_predecessors : u ∈ g.predecessors v ↔ v ∈ g.successors u := by
  unfold predecessors nodes
  rw [mem_filter, mem_range, contains_iff_mem]
  exact ⟨fun h => h.2, fun h => ⟨lt_size_of_edge h, h⟩⟩

theorem nodup_predecessors (g : FlowGraph) (v : Nat) : (g.predecessors v).Nodup :=
  Nodup.filter _ nodup_range

/-- All sources of edges to a node come before it. -/
def Forward (g : FlowGraph) (order : List Nat) : Prop :=
  ∀ p v, p ++ [v] <+: order → ∀ u, v ∈ g.successors u → u ∈ p

/-- The order has all nodes, and edges lead forward. -/
structure Sorted (g : FlowGraph) (order : List Nat) : Prop where
  nodup : order.Nodup
  complete : ∀ v, v ∈ order ↔ v < g.size
  forward : g.Forward order

theorem Sorted.before {p q : List Nat} (h : g.Sorted order) (hsplit : order = p ++ v :: q)
    (hu : v ∈ g.successors u) : u ∈ p :=
  h.forward p v ⟨q, by simp [hsplit]⟩ u hu

theorem Sorted.after {p q : List Nat} (h : g.Sorted order) (hsplit : order = p ++ v :: q)
    {w : Nat} (hw : w ∈ g.successors v) : w ∈ q := by
  have hnodup := h.nodup
  rw [hsplit, nodup_middle, nodup_cons, mem_append, not_or] at hnodup
  have hmem : w ∈ p ++ v :: q := hsplit ▸ (h.complete w).mpr (lt_size_of_mem_successors hw)
  rcases mem_append.mp hmem with hp | hq
  · -- A successor before the node would have the node before it.
    rcases append_of_mem hp with ⟨p₁, p₂, rfl⟩
    have hv : v ∈ p₁ := h.before (q := p₂ ++ v :: q) (by simp [hsplit]) hw
    exact absurd (by simp [hv]) hnodup.1.1
  · rcases mem_cons.mp hq with rfl | hq
    · exact absurd (h.before hsplit hw) hnodup.1.1
    · exact hq

namespace Sorting

variable {g : FlowGraph} {s : Sorting}

/-- The counts are right, up to the nodes in `rest`, which wait for one more
    predecessor than is not taken. -/
structure Sound (g : FlowGraph) (rest : List Nat) (s : Sorting) : Prop where
  length : s.waiting.length = g.size
  waiting : ∀ w < g.size, s.waiting.getD w 0 =
    (g.predecessors w).countP (· ∉ s.taken) + if w ∈ rest then 1 else 0
  nodup : (s.taken ++ s.ready).Nodup
  free : ∀ w ∈ s.taken ++ s.ready, w < g.size ∧ s.waiting.getD w 0 = 0
  forward : g.Forward s.taken

theorem getD_set {l : List Nat} {i j x : Nat} (hi : i < l.length) :
    (l.set i x).getD j 0 = if j = i then x else l.getD j 0 := by
  rw [getD_eq_getElem?_getD, getD_eq_getElem?_getD, getElem?_set]
  by_cases hji : j = i
  · simp [hji, hi]
  · rw [if_neg fun h => hji h.symm, if_neg hji]

theorem release_waiting (s : Sorting) (w : Nat) :
    (s.release w).waiting = s.waiting.set w (s.waiting.getD w 0 - 1) := rfl

theorem release_ready (s : Sorting) (w : Nat) :
    (s.release w).ready = if s.waiting.getD w 0 - 1 = 0 then s.ready ++ [w] else s.ready := rfl

theorem release_taken (s : Sorting) (w : Nat) : (s.release w).taken = s.taken := rfl

/-- One node fewer waits for more than is not taken. -/
theorem Sound.release {w : Nat} {rest : List Nat} (h : Sound g (w :: rest) s) (hw : w < g.size)
    (hrest : w ∉ rest) : Sound g rest (s.release w) := by
  have hlen : w < s.waiting.length := h.length ▸ hw
  have hcount : s.waiting.getD w 0 = (g.predecessors w).countP (· ∉ s.taken) + 1 := by
    simpa using h.waiting w hw
  -- It still waits, so it is neither ready nor taken.
  have hnew : w ∉ s.taken ++ s.ready := by
    intro hmem
    have := (h.free w hmem).2
    omega
  refine ⟨by simpa [release_waiting] using h.length, fun v hv => ?_, ?_, fun v hv => ?_,
    h.forward⟩
  · -- The count of `w` is one too many before and right after; the others stay.
    rw [release_waiting, release_taken, getD_set hlen]
    by_cases hvw : v = w
    · rw [if_pos hvw, hcount, hvw, if_neg hrest]
      omega
    · rw [if_neg hvw, h.waiting v hv]
      simp [hvw]
  · rw [release_taken, release_ready]
    split
    · rw [← append_assoc, ← concat_eq_append]
      exact h.nodup.concat hnew
    · exact h.nodup
  · -- What was ready or taken is not `w`, so its count is untouched.
    rw [release_waiting, getD_set hlen]
    have hold : v ∈ s.taken ++ s.ready → v < g.size ∧
        (if v = w then s.waiting.getD w 0 - 1 else s.waiting.getD v 0) = 0 := fun hv => by
      have hvw : v ≠ w := fun hvw => hnew (hvw ▸ hv)
      rw [if_neg hvw]
      exact h.free v hv
    rw [release_taken, release_ready] at hv
    split at hv
    · next hzero =>
      rw [← append_assoc, mem_append, mem_singleton] at hv
      rcases hv with hv | rfl
      · exact hold hv
      · exact ⟨hw, by rw [if_pos rfl, hzero]⟩
    · exact hold hv

theorem Sound.releaseAll : ∀ {rest : List Nat} {s : Sorting}, Sound g rest s → rest.Nodup →
    (∀ w ∈ rest, w < g.size) → Sound g [] (rest.foldl Sorting.release s)
  | [], _, h, _, _ => h
  | w :: rest, s, h, hnodup, hlt => by
    rw [nodup_cons] at hnodup
    exact (h.release (hlt w (by simp)) hnodup.1).releaseAll hnodup.2
      fun v hv => hlt v (by simp [hv])

theorem countP_taken {taken us : List Nat} {v : Nat} (hus : us.Nodup) (hv : v ∉ taken) :
    us.countP (· ∉ taken) = us.countP (· ∉ taken ++ [v]) + if v ∈ us then 1 else 0 := by
  induction us with
  | nil => simp
  | cons u us ih =>
    rw [nodup_cons] at hus
    have ih := ih hus.2
    rw [countP_cons, countP_cons, ih]
    by_cases huv : v = u
    · subst huv
      simp [hv, hus.1]
    · have hmem : (u ∉ taken ++ [v]) ↔ u ∉ taken := by simp [Ne.symm huv]
      simp only [hmem, mem_cons, huv, false_or]
      omega

theorem Sound.take {v : Nat} {ready : List Nat} (h : Sound g [] s) (hready : s.ready = v :: ready) :
    Sound g (g.successors v) { s with ready, taken := s.taken ++ [v] } := by
  have hnodup := h.nodup
  have hfree := h.free
  rw [hready] at hnodup hfree
  have hv : v ∉ s.taken := by
    rw [nodup_middle, nodup_cons] at hnodup
    exact fun hmem => hnodup.1 (by simp [hmem])
  refine ⟨h.length, fun w hw => ?_, by simpa using hnodup, fun w hw => hfree w (by simpa using hw),
    fun p x hpx u hu => ?_⟩
  · -- For each successor of `v` one more predecessor is taken than the count says.
    rw [h.waiting w hw, countP_taken (g.nodup_predecessors w) hv]
    simp [mem_predecessors]
  · rcases prefix_concat_iff.mp hpx with hpx | hpx
    · -- The node taken now waits for nothing: all its predecessors are taken.
      rcases append_inj' hpx rfl with ⟨rfl, hx⟩
      rw [singleton_inj.mp hx] at hu
      rcases hfree v (by simp) with ⟨hlt, hzero⟩
      rw [h.waiting v hlt] at hzero
      have hcount : (g.predecessors v).countP (· ∉ s.taken) = 0 := by omega
      simpa using countP_eq_zero.mp hcount u (mem_predecessors.mpr hu)
    · exact h.forward p x hpx u hu

theorem Sound.run : ∀ {fuel : Nat} {s : Sorting}, Sound g [] s → Sound g [] (Sorting.run g fuel s)
  | 0, _, h => h
  | fuel + 1, s, h => by
    unfold Sorting.run
    split
    · exact h
    · next v ready hready =>
      exact ((h.take hready).releaseAll (g.nodup_successors v)
        fun w hw => lt_size_of_mem_successors hw).run

end Sorting

theorem sound_startSorting (g : FlowGraph) : Sorting.Sound g [] g.startSorting := by
  have hwaiting : ∀ w < g.size,
      (g.nodes.map fun v => (g.predecessors v).length).getD w 0 = (g.predecessors w).length := by
    intro w hw
    simp [nodes, hw]
  refine ⟨by simp [startSorting, nodes], fun w hw => ?_, ?_, fun w hw => ?_, fun p v hpv => ?_⟩
  · -- Nothing is taken yet, so all predecessors count.
    have hall : (g.predecessors w).countP (· ∉ ([] : List Nat)) = (g.predecessors w).length :=
      countP_eq_length.mpr (by simp)
    refine (hwaiting w hw).trans ?_
    rw [startSorting, hall]
    simp
  · -- The nodes that are ready are some of the positions, in order.
    have hsub : ((g.startSorting.waiting.zipIdx.filter (·.1 = 0)).map (·.2)).Sublist
        (g.startSorting.waiting.zipIdx.map (·.2)) := filter_sublist.map _
    rw [zipIdx_map_snd] at hsub
    exact hsub.nodup nodup_range'
  · rcases mem_map.mp hw with ⟨⟨x, i⟩, hi, rfl⟩
    rcases mem_filter.mp hi with ⟨hi, hzero⟩
    have hget := mem_zipIdx_iff_getElem?.mp hi
    have hlt : i < g.size := by
      have := (List.getElem?_eq_some_iff.mp hget).1
      simpa [startSorting, nodes] using this
    refine ⟨hlt, ?_⟩
    have hx : x = 0 := by simpa using hzero
    rw [getD_eq_getElem?_getD, startSorting, hget, hx]
    rfl
  · simp [startSorting] at hpv

/-- Every node comes after all its predecessors. -/
theorem sorted_of_topologicalOrder? (h : g.topologicalOrder? = some order) : g.Sorted order := by
  unfold topologicalOrder? at h
  simp only [Option.ite_none_right_eq_some, Option.some.injEq] at h
  rcases h with ⟨hlen, rfl⟩
  have hsound : Sorting.Sound g [] (Sorting.run g g.size g.startSorting) :=
    (sound_startSorting g).run
  have hnodup := hsound.nodup.of_append_left
  have hlt : ∀ v ∈ (Sorting.run g g.size g.startSorting).taken, v < g.size :=
    fun v hv => (hsound.free v (mem_append_left _ hv)).1
  refine ⟨hnodup, fun v => ⟨hlt v, fun hv => ?_⟩, hsound.forward⟩
  -- As many different nodes as there are nodes are all of them.
  have hsub : (Sorting.run g g.size g.startSorting).taken.Subperm (List.range g.size) :=
    subperm_of_subset hnodup fun v hv => mem_range.mpr (hlt v hv)
  have hperm := hsub.perm_of_length_le (by simp [hlen])
  exact hperm.mem_iff.mpr (mem_range.mpr hv)

end FlowGraph

end Vouch
