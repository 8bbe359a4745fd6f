import Vouch.Flow.Walk
import Vouch.Proofs.Flow.Reach

/-!
# What a Walk Has Seen

At every moment the only nodes entered whose successors may not all have been entered
are the ones on the path to where the walk is, and in the end there is no path. A walk
lists edges out of the node it is at, and when it enters a node nothing is listed for it
yet.

## Main definitions

* `FlowGraph.Follows`: How a walk follows edges, without a bound.
* `FlowGraph.Walk.Sound`: What a walk has seen.

## Theorems

* `FlowGraph.follows_entry`: The walk from the entry is so described.
* `FlowGraph.mem_successors_cut_iff`: Which edges are not cut.
* `FlowGraph.nodup_closing`: Closing edges are listed once.
-/

namespace Vouch

open List

namespace FlowGraph

/-- With the path to where the walk is, the latest node first, following edges to
    the given nodes leads from one moment of the walk to another. -/
inductive Follows (g : FlowGraph) : List Nat → List Nat → Walk → Walk → Prop where
  | done {path : List Nat} {w : Walk} : Follows g path [] w w
  | close {path us : List Nat} {v u : Nat} {w w' : Walk} : u ∈ v :: path →
      Follows g (v :: path) us { w with closing := (v, u) :: w.closing } w' →
      Follows g (v :: path) (u :: us) w w'
  | pass {path us : List Nat} {u : Nat} {w w' : Walk} : u ∉ path → u ∈ w.entered →
      Follows g path us w w' → Follows g path (u :: us) w w'
  | enter {path us : List Nat} {u : Nat} {w w₁ w' : Walk} : u ∉ path → u ∉ w.entered →
      Follows g (u :: path) (g.successors u) { w with entered := u :: w.entered } w₁ →
      Follows g path us { w₁ with left := u :: w₁.left } w' → Follows g path (u :: us) w w'

variable {g : FlowGraph}

section Bound

theorem length_le_size {path : List Nat} (hnodup : path.Nodup) (hlt : ∀ x ∈ path, x < g.size) :
    path.length ≤ g.size := by
  have hsub := subperm_of_subset hnodup fun x hx => mem_range.mpr (hlt x hx)
  have hlen := hsub.length_le
  rw [length_range] at hlen
  exact hlen

/-- Deal with one successor of the node at the head of the path. -/
def follow (g : FlowGraph) (fuel : Nat) (path : List Nat) (v : Nat) (w : Walk) (u : Nat) : Walk :=
  if path.contains u then { w with closing := (v, u) :: w.closing }
  else if w.entered.contains u then w
  else g.visit fuel path u w

theorem visit_succ (g : FlowGraph) (fuel : Nat) (path : List Nat) (v : Nat) (w : Walk) :
    g.visit (fuel + 1) path v w =
      { (g.successors v).foldl (g.follow fuel (v :: path) v)
          { w with entered := v :: w.entered } with
        left := v :: ((g.successors v).foldl (g.follow fuel (v :: path) v)
          { w with entered := v :: w.entered }).left } := rfl

theorem follows_foldl : ∀ {fuel v : Nat} {path : List Nat}, (v :: path).Nodup →
    (∀ x ∈ v :: path, x < g.size) → g.size ≤ fuel + (v :: path).length →
    ∀ {us : List Nat} {w : Walk}, (∀ u ∈ us, u < g.size) →
      Follows g (v :: path) us w (us.foldl (g.follow fuel (v :: path) v) w) := by
  intro fuel
  induction fuel with
  | zero =>
    intro v path hnodup hlt hfuel us
    induction us with
    | nil => exact fun _ => .done
    | cons u us ih =>
      intro w hus
      -- Every node is on the path.
      have hu : u ∈ v :: path := by
        by_contra hu
        have hlen := length_le_size (nodup_cons.mpr ⟨hu, hnodup⟩)
          (forall_mem_cons.mpr ⟨hus u (by simp), hlt⟩)
        rw [length_cons] at hlen
        omega
      rw [foldl_cons, follow, if_pos (contains_iff_mem.mpr hu)]
      exact .close hu (ih fun x hx => hus x (by simp [hx]))
  | succ fuel ihfuel =>
    intro v path hnodup hlt hfuel us
    induction us with
    | nil => exact fun _ => .done
    | cons u us ih =>
      intro w hus
      have hrest : ∀ x ∈ us, x < g.size := fun x hx => hus x (by simp [hx])
      rw [foldl_cons, follow]
      split
      · next hu => exact .close (contains_iff_mem.mp hu) (ih hrest)
      · next hu =>
        have hu : u ∉ v :: path := fun hmem => hu (contains_iff_mem.mpr hmem)
        split
        · next hentered => exact .pass hu (contains_iff_mem.mp hentered) (ih hrest)
        · next hentered =>
          -- The visit of `u` has one node more on its path and one less to go.
          rw [visit_succ]
          refine .enter hu (fun hmem => hentered (contains_iff_mem.mpr hmem))
            (ihfuel (nodup_cons.mpr ⟨hu, hnodup⟩)
              (forall_mem_cons.mpr ⟨hus u (by simp), hlt⟩) ?_
              fun x hx => lt_size_of_mem_successors hx) (ih hrest)
          rw [length_cons]
          omega

theorem follows_walk {e : Nat} (hentry : g.entry = some e) (he : e < g.size) :
    Follows g [] [e] {} g.walk := by
  obtain ⟨n, hn⟩ : ∃ n, g.size = n + 1 := ⟨g.size - 1, by omega⟩
  unfold walk
  rw [hentry, hn]
  simp only [visit_succ]
  refine .enter (by simp) (by simp) (follows_foldl (nodup_singleton e) (by simpa using he) ?_
    fun x hx => lt_size_of_mem_successors hx) .done
  rw [hn, length_singleton]

/-- There is enough depth, since the nodes on a path are different. -/
theorem follows_entry (he : ∀ e, g.entry = some e → e < g.size) :
    Follows g [] g.entry.toList {} g.walk := by
  cases hentry : g.entry with
  | none =>
    have hwalk : g.walk = {} := by simp [walk, hentry]
    rw [hwalk]
    exact .done
  | some e => exact follows_walk hentry (he e hentry)

end Bound

section Invariant

variable {path us : List Nat} {w w' : Walk}

theorem Follows.entered (h : Follows g path us w w') : ∀ x ∈ w.entered, x ∈ w'.entered := by
  induction h with
  | done => exact fun _ hx => hx
  | close _ _ ih | pass _ _ _ ih => exact ih
  | enter _ _ _ _ ih ih' => exact fun x hx => ih' x (ih x (mem_cons_of_mem _ hx))

theorem Follows.reached (h : Follows g path us w w') (hpath : ∀ x ∈ path, x ∈ w.entered) :
    ∀ u ∈ us, u ∈ w'.entered := by
  induction h with
  | done => simp
  | close hu hrest ih =>
    exact forall_mem_cons.mpr ⟨hrest.entered _ (hpath _ hu), ih hpath⟩
  | pass _ hu hrest ih => exact forall_mem_cons.mpr ⟨hrest.entered _ hu, ih hpath⟩
  | enter _ _ hvisit hrest _ ih =>
    have hgrows := hvisit.entered
    refine forall_mem_cons.mpr ⟨hrest.entered _ (hgrows _ (by simp)), ih fun x hx => ?_⟩
    exact hgrows x (mem_cons_of_mem _ (hpath x hx))

theorem Follows.closing (h : Follows g path us w w') : ∀ e ∈ w'.closing,
    e ∈ w.closing ∨ (path.head? = some e.1 ∧ e.2 ∈ us) ∨ e.1 ∉ w.entered := by
  induction h with
  | done => exact fun e he => .inl he
  | close _ _ ih =>
    intro e he
    rcases ih e he with he | he | he
    · rcases mem_cons.mp he with rfl | he
      · exact .inr (.inl ⟨rfl, mem_cons_self⟩)
      · exact .inl he
    · exact .inr (.inl ⟨he.1, mem_cons_of_mem _ he.2⟩)
    · exact .inr (.inr he)
  | pass _ _ _ ih =>
    exact fun e he => (ih e he).imp_right fun h =>
      h.imp_left fun h => ⟨h.1, mem_cons_of_mem _ h.2⟩
  | @enter path us u w w₁ w' _ hnew hvisit _ ih ih' =>
    intro e he
    rcases ih' e he with he | he | he
    · -- Listed while `u` was visited, or before.
      rcases ih e he with he | he | he
      · exact .inl he
      · obtain rfl : u = e.1 := by simpa using he.1
        exact .inr (.inr hnew)
      · exact .inr (.inr fun hmem => he (mem_cons_of_mem _ hmem))
    · exact .inr (.inl ⟨he.1, mem_cons_of_mem _ he.2⟩)
    · exact .inr (.inr fun hmem => he (hvisit.entered _ (mem_cons_of_mem _ hmem)))

/-- The nodes off the path are dealt with, and the edges listed are edges out of
    nodes that were entered, none of them listed twice. -/
structure Walk.Sound (g : FlowGraph) (path : List Nat) (w : Walk) : Prop where
  onPath : ∀ x ∈ path, x ∈ w.entered
  closed : ∀ x ∈ w.entered, x ∉ path → ∀ u ∈ g.successors x, u ∈ w.entered
  edges : ∀ e ∈ w.closing, e.2 ∈ g.successors e.1 ∧ e.1 ∈ w.entered
  nodup : w.closing.Nodup

theorem Walk.Sound.close {u v : Nat} (h : Walk.Sound g (v :: path) w) (hu : u ∈ g.successors v)
    (hnew : (v, u) ∉ w.closing) :
    Walk.Sound g (v :: path) { w with closing := (v, u) :: w.closing } := by
  refine ⟨h.onPath, h.closed, forall_mem_cons.mpr ⟨⟨hu, ?_⟩, h.edges⟩, ?_⟩
  · exact h.onPath v (by simp)
  · exact nodup_cons.mpr ⟨hnew, h.nodup⟩

theorem Walk.Sound.enter {u : Nat} (h : Walk.Sound g path w) :
    Walk.Sound g (u :: path) { w with entered := u :: w.entered } := by
  refine ⟨?_, fun x hx hnot y hy => ?_, fun e he => ?_, h.nodup⟩
  · exact forall_mem_cons.mpr ⟨by simp, fun x hx => mem_cons_of_mem _ (h.onPath x hx)⟩
  · rw [mem_cons, not_or] at hnot
    have hx : x ∈ w.entered := (mem_cons.mp hx).resolve_left hnot.1
    exact mem_cons_of_mem _ (h.closed x hx hnot.2 y hy)
  · rcases h.edges e he with ⟨hedge, hmem⟩
    exact ⟨hedge, mem_cons_of_mem _ hmem⟩

theorem Walk.Sound.leave {u : Nat} (h : Walk.Sound g (u :: path) w)
    (hu : ∀ y ∈ g.successors u, y ∈ w.entered) :
    Walk.Sound g path { w with left := u :: w.left } := by
  refine ⟨fun x hx => h.onPath x (by simp [hx]), fun x hx hnot y hy => ?_, h.edges, h.nodup⟩
  -- The only node that leaves the path is `u` itself.
  by_cases hxu : x = u
  · exact hu y (hxu ▸ hy)
  · exact h.closed x hx (by simp [hxu, hnot]) y hy

/-- What a walk needs to follow edges: they are different edges out of the node it
    is at, and not listed yet. -/
structure Walk.Ready (g : FlowGraph) (path us : List Nat) (w : Walk) : Prop
    extends Walk.Sound g path w where
  distinct : us.Nodup
  ahead : ∀ v, path.head? = some v → ∀ u ∈ us, u ∈ g.successors v ∧ (v, u) ∉ w.closing

namespace Walk.Ready

variable {u v : Nat}

theorem close (h : Walk.Ready g (v :: path) (u :: us) w) :
    Walk.Ready g (v :: path) us { w with closing := (v, u) :: w.closing } := by
  have hu := h.ahead v rfl u (by simp)
  refine ⟨h.toSound.close hu.1 hu.2, (nodup_cons.mp h.distinct).2, fun x hx y hy => ?_⟩
  cases hx
  have hy' := h.ahead v rfl y (by simp [hy])
  refine ⟨hy'.1, fun hmem => ?_⟩
  rcases mem_cons.mp hmem with heq | hmem
  · exact (nodup_cons.mp h.distinct).1 ((Prod.mk.inj heq).2 ▸ hy)
  · exact hy'.2 hmem

theorem pass (h : Walk.Ready g path (u :: us) w) : Walk.Ready g path us w :=
  ⟨h.toSound, (nodup_cons.mp h.distinct).2, fun x hx y hy => h.ahead x hx y (by simp [hy])⟩

theorem visit (h : Walk.Ready g path (u :: us) w) (hu : u ∉ w.entered) :
    Walk.Ready g (u :: path) (g.successors u) { w with entered := u :: w.entered } := by
  refine ⟨h.toSound.enter, g.nodup_successors u, fun x hx y hy => ?_⟩
  cases hx
  exact ⟨hy, fun hmem => hu (h.edges _ hmem).2⟩

theorem leave (h : Walk.Ready g path (u :: us) w) (hu : u ∉ path)
    (hvisit : Follows g (u :: path) (g.successors u) { w with entered := u :: w.entered } w')
    (hvisited : Walk.Sound g (u :: path) w') :
    Walk.Ready g path us { w' with left := u :: w'.left } := by
  refine ⟨hvisited.leave (hvisit.reached h.toSound.enter.onPath),
    (nodup_cons.mp h.distinct).2, fun x hx y hy => ?_⟩
  have hy' := h.ahead x hx y (by simp [hy])
  have hx' : x ∈ path := mem_of_mem_head? hx
  refine ⟨hy'.1, fun hmem => ?_⟩
  rcases hvisit.closing _ hmem with hmem | hmem | hmem
  · exact hy'.2 hmem
  · obtain rfl : u = x := by simpa using hmem.1
    exact hu hx'
  · exact hmem (mem_cons_of_mem _ (h.onPath x hx'))

end Walk.Ready

/-- Where the walk goes on from nothing is listed yet, so no edge is listed twice. -/
theorem Follows.sound (h : Follows g path us w w') (hw : Walk.Ready g path us w) :
    Walk.Sound g path w' := by
  induction h with
  | done => exact hw.toSound
  | close _ _ ih => exact ih hw.close
  | pass _ _ _ ih => exact ih hw.pass
  | enter hu hnew hvisit _ ih ih' => exact ih' (hw.leave hu hvisit (ih (hw.visit hnew)))

end Invariant

theorem successors_filterEdges (g : FlowGraph) (keep : Nat → Nat → Bool) (u : Nat) :
    (g.filterEdges keep).successors u = (g.successors u).filter (keep u) := by
  by_cases hu : u < g.size
  · simp [successors, filterEdges, nodes, hu]
  · rw [successors_eq_nil hu]
    simp [successors, filterEdges, nodes, hu]

theorem mem_successors_cut_iff {u v : Nat} : v ∈ g.cut.graph.successors u ↔
    v ∈ g.successors u ∧ u ∈ g.walk.entered ∧ (u, v) ∉ g.walk.closing := by
  unfold cut
  rw [successors_filterEdges, mem_filter]
  simp

theorem ready_start (g : FlowGraph) : Walk.Ready g [] g.entry.toList {} :=
  ⟨⟨by simp, by simp, by simp, nodup_nil⟩, by cases g.entry <;> simp, by simp⟩

section Entry

variable {e : Nat} (hentry : g.entry = some e) (he : e < g.size)
include hentry he

theorem walk_sound : Walk.Sound g [] g.walk := by
  have hready := g.ready_start
  rw [hentry] at hready
  exact (follows_walk hentry he).sound hready

theorem mem_entered_of_reaches {v : Nat} (hv : g.Reaches e v) : v ∈ g.walk.entered := by
  induction hv with
  | refl => exact (follows_walk hentry he).reached (by simp) e (by simp)
  | tail _ hw ih => exact (walk_sound hentry he).closed _ ih (by simp) _ hw

theorem mem_successors_of_closing {u v : Nat} (h : (u, v) ∈ g.walk.closing) : v ∈ g.successors u :=
  ((walk_sound hentry he).edges _ h).1

theorem nodup_closing : g.walk.closing.Nodup :=
  (walk_sound hentry he).nodup

theorem mem_successors_cut {u v : Nat} (hu : g.Reaches e u) (hv : v ∈ g.successors u)
    (hopen : (u, v) ∉ g.walk.closing) : v ∈ g.cut.graph.successors u :=
  mem_successors_cut_iff.mpr ⟨hv, mem_entered_of_reaches hentry he hu, hopen⟩

end Entry

end FlowGraph

end Vouch
