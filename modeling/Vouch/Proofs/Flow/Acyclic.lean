import Mathlib.Data.Fintype.EquivFin
import Mathlib.Order.WellFounded
import Vouch.Proofs.Flow.Walk

/-!
# Graphs Without Cycles

When a walk leaves a node, every edge out of the node was listed as closing a cycle or
leads to a node that was left before. So in the order of leaving, the edges that are not
cut all lead backward.

## Main definitions

* `FlowGraph.Acyclic`: No node comes after itself.
* `FlowGraph.Walk.Ordered`: What a walk keeps about the nodes it left.

## Theorems

* `FlowGraph.acyclic_cut`: Without the edges that close cycles there is no cycle.
* `FlowGraph.exists_topologicalOrder`: Without cycles there is an order.
-/

namespace Vouch

open List

namespace FlowGraph

/-- No node comes after itself. -/
def Acyclic (g : FlowGraph) : Prop :=
  ∀ v, ¬ Relation.TransGen (fun u v => v ∈ g.successors u) v v

variable {g : FlowGraph}

section Leaving

variable {path us : List Nat} {w w' : Walk}

theorem Follows.grows (h : Follows g path us w w') : w.left ⊆ w'.left ∧ w.closing ⊆ w'.closing := by
  induction h with
  | done => exact ⟨fun _ hx => hx, fun _ he => he⟩
  | close _ _ ih => exact ⟨ih.1, fun e he => ih.2 (mem_cons_of_mem _ he)⟩
  | pass _ _ _ ih => exact ih
  | enter _ _ _ _ ih ih' =>
    exact ⟨fun x hx => ih'.1 (mem_cons_of_mem _ (ih.1 hx)), fun e he => ih'.2 (ih.2 he)⟩

/-- A node that was entered is on the path or was left, and before it was left its
    edges were listed or the nodes they lead to were left. -/
structure Walk.Ordered (g : FlowGraph) (path : List Nat) (w : Walk) : Prop where
  gone : ∀ x ∈ w.entered, x ∈ path ∨ x ∈ w.left
  before : ∀ p x q, w.left = p ++ x :: q → ∀ y ∈ g.successors x, (x, y) ∈ w.closing ∨ y ∈ q

theorem Walk.Ordered.close {e : Nat × Nat} (h : Walk.Ordered g path w) :
    Walk.Ordered g path { w with closing := e :: w.closing } := by
  refine ⟨h.gone, fun p x q hsplit y hy => ?_⟩
  exact (h.before p x q hsplit y hy).imp_left (mem_cons_of_mem _)

theorem Walk.Ordered.enter (h : Walk.Ordered g path w) (u : Nat) :
    Walk.Ordered g (u :: path) { w with entered := u :: w.entered } := by
  refine ⟨fun x hx => ?_, h.before⟩
  rcases mem_cons.mp hx with rfl | hx
  · exact .inl (mem_cons_self ..)
  · exact (h.gone x hx).imp_left (mem_cons_of_mem _)

theorem Walk.Ordered.leave {u : Nat} (h : Walk.Ordered g (u :: path) w)
    (hu : ∀ y ∈ g.successors u, (u, y) ∈ w.closing ∨ y ∈ w.left) :
    Walk.Ordered g path { w with left := u :: w.left } := by
  refine ⟨fun x hx => ?_, fun p x q hsplit y hy => ?_⟩
  · rcases h.gone x hx with hx | hx
    · rcases mem_cons.mp hx with rfl | hx
      · exact .inr (mem_cons_self ..)
      · exact .inl hx
    · exact .inr (mem_cons_of_mem _ hx)
  · cases p with
    | nil =>
      rcases List.cons.inj hsplit with ⟨rfl, rfl⟩
      exact hu y hy
    | cons z p => exact h.before p x q (List.cons.inj hsplit).2 y hy

theorem Follows.ordered (h : Follows g path us w w') (hw : Walk.Ordered g path w) :
    Walk.Ordered g path w' ∧
      ∀ v, path.head? = some v → ∀ u ∈ us, (v, u) ∈ w'.closing ∨ u ∈ w'.left := by
  induction h with
  | done => exact ⟨hw, by simp⟩
  | @close path us v u w w' _ hrest ih =>
    have ih := ih hw.close
    refine ⟨ih.1, fun x hx => forall_mem_cons.mpr ⟨?_, ih.2 x hx⟩⟩
    cases hx
    exact .inl (hrest.grows.2 (mem_cons_self ..))
  | @pass path us u w w' hnot hentered hrest ih =>
    have ih := ih hw
    refine ⟨ih.1, fun x hx => forall_mem_cons.mpr ⟨?_, ih.2 x hx⟩⟩
    -- A node off the path that was entered was left.
    exact .inr (hrest.grows.1 ((hw.gone u hentered).resolve_left hnot))
  | @enter path us u w w₁ w' _ _ _ hrest ih ih' =>
    have hvisit := ih (hw.enter u)
    have ih' := ih' (hvisit.1.leave (hvisit.2 u rfl))
    refine ⟨ih'.1, fun x hx => forall_mem_cons.mpr ⟨?_, ih'.2 x hx⟩⟩
    exact .inr (hrest.grows.1 (mem_cons_self ..))

end Leaving

theorem not_transGen_of_before {R : Nat → Nat → Prop} : ∀ {l : List Nat},
    (∀ p x q, l = p ++ x :: q → ∀ y, R x y → y ∈ q) → ∀ x ∈ l, ¬ Relation.TransGen R x x
  | [], _, _, hx => absurd hx not_mem_nil
  | z :: l, hbefore, x, hx => by
    have hrest : ∀ p x q, l = p ++ x :: q → ∀ y, R x y → y ∈ q := fun p x q hsplit =>
      hbefore (z :: p) x q (by rw [hsplit, cons_append])
    have hclosed : ∀ a b, Relation.TransGen R a b → a ∈ l → b ∈ l := by
      intro a b hab ha
      induction hab with
      | single hab =>
        obtain ⟨p, q, hsplit⟩ := append_of_mem ha
        rw [hsplit]
        exact mem_append_right _ (mem_cons_of_mem _ (hrest p a q hsplit _ hab))
      | @tail b c _ hbc ih =>
        obtain ⟨p, q, hsplit⟩ := append_of_mem ih
        rw [hsplit]
        exact mem_append_right _ (mem_cons_of_mem _ (hrest p b q hsplit _ hbc))
    intro hcycle
    have hxl : x ∈ l := by
      rcases mem_cons.mp hx with rfl | hx
      · -- The first edge of the cycle leads into the rest, and there is no way back.
        obtain ⟨y, hxy, hyx⟩ := Relation.TransGen.head'_iff.mp hcycle
        have hy := hbefore [] x l rfl y hxy
        rcases Relation.reflTransGen_iff_eq_or_transGen.mp hyx with rfl | hyx
        · exact hy
        · exact hclosed y x hyx hy
      · exact hx
    exact not_transGen_of_before hrest x hxl hcycle

theorem walk_ordered (he : ∀ e, g.entry = some e → e < g.size) : Walk.Ordered g [] g.walk :=
  ((follows_entry he).ordered ⟨by simp, by simp⟩).1

/-- The order of leaving is one in which no edge that is left leads forward. -/
theorem acyclic_cut (he : ∀ e, g.entry = some e → e < g.size) : g.cut.graph.Acyclic := by
  have hordered := walk_ordered he
  intro v hcycle
  -- A node with an edge was entered, and in the end it was left.
  have hv : v ∈ g.walk.left := by
    obtain ⟨u, hu, _⟩ := Relation.TransGen.head'_iff.mp hcycle
    have hentered := (mem_successors_cut_iff.mp hu).2.1
    exact (hordered.gone v hentered).resolve_left not_mem_nil
  refine not_transGen_of_before (fun p x q hsplit y hy => ?_) v hv hcycle
  rcases mem_successors_cut_iff.mp hy with ⟨hedge, _, hopen⟩
  exact (hordered.before p x q hsplit y hedge).resolve_left hopen

namespace Sorting

/-- What waits for nothing is taken or ready. -/
def Prompt (g : FlowGraph) (s : Sorting) : Prop :=
  ∀ w < g.size, s.waiting.getD w 0 = 0 → w ∈ s.taken ++ s.ready

theorem Prompt.release {s : Sorting} (h : s.Prompt g) (hlen : s.waiting.length = g.size) {v : Nat}
    (hv : v < g.size) : (s.release v).Prompt g := by
  intro w hw hzero
  rw [release_waiting, getD_set (hlen ▸ hv)] at hzero
  rw [release_taken, release_ready]
  by_cases hwv : w = v
  · rw [if_pos hwv] at hzero
    rw [if_pos hzero, hwv]
    simp
  · rw [if_neg hwv] at hzero
    rcases mem_append.mp (h w hw hzero) with hw | hw
    · exact mem_append_left _ hw
    · refine mem_append_right _ ?_
      split
      · exact mem_append_left _ hw
      · exact hw

theorem Prompt.releaseAll : ∀ {vs : List Nat} {s : Sorting}, s.Prompt g →
    s.waiting.length = g.size → (∀ v ∈ vs, v < g.size) → (vs.foldl Sorting.release s).Prompt g
  | [], _, h, _, _ => h
  | v :: vs, s, h, hlen, hvs => by
    refine (h.release hlen (hvs v (by simp))).releaseAll ?_ fun x hx => hvs x (by simp [hx])
    simpa [release_waiting] using hlen

theorem taken_releaseAll (vs : List Nat) (s : Sorting) :
    (vs.foldl Sorting.release s).taken = s.taken := by
  induction vs generalizing s with
  | nil => rfl
  | cons v vs ih => rw [foldl_cons, ih, release_taken]

theorem Prompt.run : ∀ (fuel : Nat) {s : Sorting}, s.Prompt g → Sound g [] s →
    (Sorting.run g fuel s).Prompt g ∧
      ((Sorting.run g fuel s).ready = [] ∨
        (Sorting.run g fuel s).taken.length = s.taken.length + fuel)
  | 0, _, h, _ => ⟨h, .inr rfl⟩
  | fuel + 1, s, h, hs => by
    unfold Sorting.run
    split
    · next hready => exact ⟨h, .inl hready⟩
    · next v ready hready =>
      have htake := hs.take hready
      have hprompt : Prompt g { s with ready, taken := s.taken ++ [v] } := by
        intro w hw hzero
        have hmem := h w hw hzero
        rw [hready] at hmem
        simpa using hmem
      have hlt : ∀ w ∈ g.successors v, w < g.size := fun w hw => lt_size_of_mem_successors hw
      have ih := Prompt.run fuel (hprompt.releaseAll htake.length hlt)
        (htake.releaseAll (g.nodup_successors v) hlt)
      rw [taken_releaseAll, length_append, length_singleton] at ih
      refine ⟨ih.1, ih.2.imp_right fun h => ?_⟩
      omega

end Sorting

theorem prompt_startSorting (g : FlowGraph) : g.startSorting.Prompt g := by
  intro w hw hzero
  have hget : g.startSorting.waiting[w]? = some (g.startSorting.waiting.getD w 0) := by
    have hlt : w < g.startSorting.waiting.length := by simpa [startSorting, nodes] using hw
    rw [getD_eq_getElem?_getD, getElem?_eq_getElem hlt]
    rfl
  refine mem_append_right _ (mem_map.mpr ⟨(0, w), mem_filter.mpr ⟨?_, rfl⟩, rfl⟩)
  rw [hzero] at hget
  exact mem_zipIdx_iff_getElem?.mpr hget

theorem Acyclic.wellFounded (h : g.Acyclic) : WellFounded fun u v : Fin g.size =>
    Relation.TransGen (fun u v => v ∈ g.successors u) u.1 v.1 := by
  have : IsTrans (Fin g.size) fun u v : Fin g.size =>
      Relation.TransGen (fun u v => v ∈ g.successors u) u.1 v.1 :=
    ⟨fun _ _ _ => Relation.TransGen.trans⟩
  have : Std.Irrefl fun u v : Fin g.size =>
      Relation.TransGen (fun u v => v ∈ g.successors u) u.1 v.1 := ⟨fun v => h v.1⟩
  exact Finite.wellFounded_of_trans_of_irrefl _

theorem Acyclic.eq_empty (h : g.Acyclic) {P : Nat → Prop} (hlt : ∀ v, P v → v < g.size)
    (hbefore : ∀ v, P v → ∃ u, P u ∧ v ∈ g.successors u) : ∀ v, ¬ P v := by
  intro v hv
  -- There is a first one, and yet there is one before it.
  obtain ⟨m, hm, hmin⟩ := h.wellFounded.has_min {x | P x.1} ⟨⟨v, hlt v hv⟩, hv⟩
  obtain ⟨u, hu, hum⟩ := hbefore m.1 hm
  exact hmin ⟨u, hlt u hu⟩ hu (.single hum)

/-- Nodes that wait for each other could only do so in a cycle. -/
theorem exists_topologicalOrder (h : g.Acyclic) : ∃ order, g.topologicalOrder? = some order := by
  have hsound : Sorting.Sound g [] (Sorting.run g g.size g.startSorting) :=
    (sound_startSorting g).run
  have hrun := Sorting.Prompt.run g.size (prompt_startSorting g) (sound_startSorting g)
  unfold topologicalOrder?
  generalize Sorting.run g g.size g.startSorting = s at hsound hrun ⊢
  have hnodup := hsound.nodup.of_append_left
  have hlt : ∀ v ∈ s.taken, v < g.size := fun v hv => (hsound.free v (mem_append_left _ hv)).1
  refine ⟨s.taken, if_pos ?_⟩
  rcases hrun.2 with hready | hlen
  · -- Whoever is not taken waits for a predecessor that is not taken.
    have hall : ∀ v, ¬ (v < g.size ∧ v ∉ s.taken) := by
      refine h.eq_empty (fun v hv => hv.1) fun v hv => ?_
      have hwaits : s.waiting.getD v 0 ≠ 0 := by
        intro hzero
        have hmem := hrun.1 v hv.1 hzero
        rw [hready, append_nil] at hmem
        exact hv.2 hmem
      rw [hsound.waiting v hv.1] at hwaits
      have hpos : 0 < (g.predecessors v).countP (· ∉ s.taken) := by
        simpa [Nat.pos_iff_ne_zero] using hwaits
      obtain ⟨u, hu, hnot⟩ := countP_pos_iff.mp hpos
      have huv := mem_predecessors.mp hu
      exact ⟨u, ⟨lt_size_of_edge huv, by simpa using hnot⟩, huv⟩
    have hperm : s.taken.Perm (List.range g.size) := by
      refine (perm_ext_iff_of_nodup hnodup nodup_range).mpr fun v => ?_
      rw [mem_range]
      exact ⟨hlt v, fun hv => by_contra fun hnot => hall v ⟨hv, hnot⟩⟩
    rw [hperm.length_eq, length_range]
  · simpa [startSorting] using hlen

end FlowGraph

end Vouch
