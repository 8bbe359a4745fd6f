import Vouch.Proofs.Flow.Acyclic

/-!
# What Is Left of a Graph

A walk enters a node along an edge out of the node it is at, and it never lists such an
edge as closing a cycle. So the nodes on the path are joined by edges that are kept.

## Main definitions

* `FlowGraph.Live`: The entry reaches a node.
* `FlowGraph.Walk.Continues`: How a walk goes on from a moment to its end.
* `FlowGraph.Walk.Descent`: What a walk has seen on its way down.

## Theorems

* `FlowGraph.walk_descent`: What the whole walk has seen.
* `FlowGraph.closes_cycle`: An edge that is cut closes a cycle.
* `cut_exact`: What is cut and what is left.
-/

namespace Vouch

open List

namespace FlowGraph

variable {g : FlowGraph}

/-- The entry reaches the node. -/
def Live (g : FlowGraph) (v : Nat) : Prop :=
  ∃ e, g.entry = some e ∧ g.Reaches e v

theorem Live.trans {u v : Nat} (h : g.Live u) (huv : g.Reaches u v) : g.Live v := by
  rcases h with ⟨e, hentry, hu⟩
  exact ⟨e, hentry, hu.trans huv⟩

theorem Live.lt_size {v : Nat} (he : ∀ e, g.entry = some e → e < g.size) (h : g.Live v) :
    v < g.size := by
  rcases h with ⟨e, hentry, hv⟩
  exact hv.lt_size (he e hentry)

namespace Walk

/-- The edge starts where the walk has been and is not listed. -/
def Keeps (g : FlowGraph) (W : Walk) (u v : Nat) : Prop :=
  v ∈ g.successors u ∧ u ∈ W.entered ∧ (u, v) ∉ W.closing

/-- After following some edges the walk goes on and ends in `W`. What it lists on the
    way are edges out of new nodes, and out of nodes on the path, but none that it
    has followed. -/
structure Continues (path us : List Nat) (w W : Walk) : Prop where
  entered : ∀ x ∈ w.entered, x ∈ W.entered
  closing : ∀ e ∈ W.closing, e.1 ∈ w.entered →
    e ∈ w.closing ∨ e.1 ∈ path ∧ (path.head? = some e.1 → e.2 ∉ us)

variable {W : Walk} {path : List Nat} {u : Nat}

theorem Continues.tail {us : List Nat} {w : Walk} (h : Continues path (u :: us) w W) :
    Continues path us w W := by
  refine ⟨h.entered, fun e he hmem => (h.closing e he hmem).imp_right fun h => ⟨h.1, ?_⟩⟩
  intro hhead hus
  exact h.2 hhead (mem_cons_of_mem _ hus)

section Entering

variable {path us : List Nat} {u : Nat} {w w₁ w' W : Walk} (h : Continues path (u :: us) w' W)
  (hu : u ∉ path) (hrest : Follows g path us { w₁ with left := u :: w₁.left } w')
include h hu hrest

theorem Continues.visit : Continues (u :: path) (g.successors u) w₁ W := by
  refine ⟨fun x hx => h.entered x (hrest.entered x hx), fun e he hmem => ?_⟩
  -- Whatever is listed later for a node on the path is not an edge out of `u`.
  have hother : e.1 ∈ path →
      e.1 ∈ u :: path ∧ ((u :: path).head? = some e.1 → e.2 ∉ g.successors u) := by
    refine fun hpath => ⟨mem_cons_of_mem _ hpath, fun hhead => ?_⟩
    obtain rfl : u = e.1 := by simpa using hhead
    exact absurd hpath hu
  rcases h.closing e he (hrest.entered _ hmem) with he | he
  · rcases hrest.closing e he with he | he | he
    · exact .inl he
    · exact .inr (hother (mem_of_mem_head? he.1))
    · exact absurd hmem he
  · exact .inr (hother he.1)

theorem Continues.keeps (hready : Walk.Ready g path (u :: us) w)
    (hvisit : Follows g (u :: path) (g.successors u) { w with entered := u :: w.entered } w₁)
    {v : Nat} (hv : path.head? = some v) : W.Keeps g v u := by
  have hpath : v ∈ path := mem_of_mem_head? hv
  have hv₁ : v ∈ w₁.entered := hvisit.entered _ (mem_cons_of_mem _ (hready.onPath v hpath))
  have hv' : v ∈ w'.entered := hrest.entered _ hv₁
  have hahead := hready.ahead v hv u (by simp)
  refine ⟨hahead.1, h.entered v hv', fun hmem => ?_⟩
  rcases h.closing _ hmem hv' with hmem | hmem
  · rcases hrest.closing _ hmem with hmem | hmem | hmem
    · rcases hvisit.closing _ hmem with hmem | hmem | hmem
      · exact hahead.2 hmem
      · obtain rfl : u = v := by simpa using hmem.1
        exact hu hpath
      · exact hmem (mem_cons_of_mem _ (hready.onPath v hpath))
    · exact (nodup_cons.mp hready.distinct).1 hmem.2
    · exact hmem hv₁
  · exact hmem.2 hv (mem_cons_self ..)

end Entering

/-- There is a way along edges that are kept. -/
def Down (g : FlowGraph) (W : Walk) : Nat → Nat → Prop :=
  Relation.ReflTransGen (W.Keeps g)

theorem Down.reaches {v : Nat} (h : W.Down g u v) : g.Reaches u v :=
  Relation.ReflTransGen.mono (fun _ _ hkeeps => hkeeps.1) u v h

theorem Down.reaches_cut {v : Nat} (h : g.walk.Down g u v) : g.cut.graph.Reaches u v :=
  Relation.ReflTransGen.mono (fun _ _ => mem_successors_cut_iff.mpr) u v h

/-- Every node on the path reaches the latest one. -/
def Joins (g : FlowGraph) (W : Walk) (path : List Nat) : Prop :=
  ∀ v, path.head? = some v → ∀ x ∈ path, W.Down g x v

theorem Joins.cons (h : W.Joins g path) (hkeeps : ∀ v, path.head? = some v → W.Keeps g v u) :
    W.Joins g (u :: path) := by
  intro v hv
  obtain rfl : u = v := by simpa using hv
  refine forall_mem_cons.mpr ⟨.refl, fun x hx => ?_⟩
  cases path with
  | nil => exact absurd hx not_mem_nil
  | cons v path => exact (h v rfl x hx).tail (hkeeps v rfl)

/-- What a walk has seen, if it goes down along edges that are kept in `W`. -/
structure Descent (g : FlowGraph) (W : Walk) (w : Walk) : Prop where
  reached : ∀ x ∈ w.entered, ∃ e, g.entry = some e ∧ W.Down g e x
  back : ∀ b ∈ w.closing, W.Down g b.2 b.1
  closed : ∀ x ∈ w.left, ∀ z ∈ g.successors x, z ∈ w.entered
  nested : ∀ p y q, w.left = p ++ y :: q → ∀ x ∈ y :: q, ∀ z ∈ g.successors x,
    z ∈ y :: q ∨ W.Down g z y

namespace Descent

variable {W : Walk} {u : Nat} {path : List Nat} {w : Walk}

theorem close {b : Nat × Nat} (h : Descent g W w) (hb : W.Down g b.2 b.1) :
    Descent g W { w with closing := b :: w.closing } :=
  ⟨h.reached, forall_mem_cons.mpr ⟨hb, h.back⟩, h.closed, h.nested⟩

theorem enter (h : Descent g W w) (hu : ∃ e, g.entry = some e ∧ W.Down g e u) :
    Descent g W { w with entered := u :: w.entered } :=
  ⟨forall_mem_cons.mpr ⟨hu, h.reached⟩, h.back,
    fun x hx z hz => mem_cons_of_mem _ (h.closed x hx z hz), h.nested⟩

theorem leave (h : Descent g W w) (hjoins : W.Joins g (u :: path))
    (hgone : ∀ x ∈ w.entered, x ∈ u :: path ∨ x ∈ w.left)
    (hu : ∀ z ∈ g.successors u, z ∈ w.entered) :
    Descent g W { w with left := u :: w.left } := by
  have hclosed : ∀ x ∈ u :: w.left, ∀ z ∈ g.successors x, z ∈ w.entered :=
    forall_mem_cons.mpr ⟨hu, h.closed⟩
  refine ⟨h.reached, h.back, hclosed, fun p y q hsplit x hx z hz => ?_⟩
  cases p with
  | nil =>
    rcases List.cons.inj hsplit with ⟨rfl, rfl⟩
    rcases hgone z (hclosed x hx z hz) with hz | hz
    · exact .inr (hjoins u rfl z hz)
    · exact .inl (mem_cons_of_mem _ hz)
  | cons _ p => exact h.nested p y q (List.cons.inj hsplit).2 x hx z hz

end Descent

end Walk

variable {path us : List Nat} {w w' : Walk}

/-- Following edges keeps the invariant. Without a path there is only the entry to
    follow. -/
theorem Follows.descent {W : Walk} (h : Follows g path us w w') (hready : Walk.Ready g path us w)
    (hordered : Walk.Ordered g path w) (hjoins : W.Joins g path)
    (hcontinues : Walk.Continues path us w' W) (hroot : path = [] → ∀ u ∈ us, g.entry = some u)
    (hw : Walk.Descent g W w) : Walk.Descent g W w' := by
  induction h with
  | done => exact hw
  | @close path us v u w w' hu _ ih =>
    exact ih hready.close hordered.close hjoins hcontinues.tail (fun h => by cases h)
      (hw.close (hjoins v rfl u hu))
  | pass _ _ _ ih =>
    exact ih hready.pass hordered hjoins hcontinues.tail (fun h x hx => hroot h x (by simp [hx])) hw
  | @enter path us u w w₁ w' hu hnew hvisit hrest ih ih' =>
    have hkeeps := fun v hv => hcontinues.keeps hu hrest hready hvisit (v := v) hv
    have hjoins' := hjoins.cons hkeeps
    have hdown : ∃ e, g.entry = some e ∧ W.Down g e u := by
      cases path with
      | nil => exact ⟨u, hroot rfl u (by simp), .refl⟩
      | cons v path =>
        rcases hw.reached v (hready.onPath v (by simp)) with ⟨e, hentry, hv⟩
        exact ⟨e, hentry, hv.tail (hkeeps v rfl)⟩
    have hvisited := hvisit.ordered (hordered.enter u)
    have hsound := hvisit.sound (hready.visit hnew)
    have hw₁ := ih (hready.visit hnew) (hordered.enter u) hjoins'
      (hcontinues.visit hu hrest) (fun h => by cases h) (hw.enter hdown)
    exact ih' (hready.leave hu hvisit hsound) (hvisited.1.leave (hvisited.2 u rfl)) hjoins
      hcontinues.tail (fun h x hx => hroot h x (by simp [hx]))
      (hw₁.leave hjoins' hvisited.1.gone (hvisit.reached (hready.visit hnew).onPath))

theorem Follows.left (h : Follows g path us w w') :
    ∀ x ∈ w'.left, x ∈ w.left ∨ x ∈ w'.entered ∧ x ∉ w.entered := by
  induction h with
  | done => exact fun x hx => .inl hx
  | close _ _ ih | pass _ _ _ ih => exact ih
  | enter _ hnew hvisit hrest ih ih' =>
    intro x hx
    rcases ih' x hx with hx | hx
    · rcases mem_cons.mp hx with rfl | hx
      · exact .inr ⟨hrest.entered _ (hvisit.entered _ (mem_cons_self ..)), hnew⟩
      · refine (ih x hx).imp_right fun h => ⟨hrest.entered x h.1, fun hmem => ?_⟩
        exact h.2 (mem_cons_of_mem _ hmem)
    · exact .inr ⟨hx.1, fun hmem => hx.2 (hvisit.entered _ (mem_cons_of_mem _ hmem))⟩

theorem Follows.nodup_left (h : Follows g path us w w') (hw : w.left.Nodup)
    (hleft : ∀ x ∈ w.left, x ∈ w.entered) : w'.left.Nodup ∧ ∀ x ∈ w'.left, x ∈ w'.entered := by
  induction h with
  | done => exact ⟨hw, hleft⟩
  | close _ _ ih | pass _ _ _ ih => exact ih hw hleft
  | @enter path us u w w₁ w' _ hnew hvisit _ ih ih' =>
    have hvisited := ih hw fun x hx => mem_cons_of_mem _ (hleft x hx)
    have hu : u ∉ w₁.left := by
      intro hmem
      rcases hvisit.left u hmem with hmem | hmem
      · exact hnew (hleft u hmem)
      · exact hmem.2 (mem_cons_self ..)
    refine ih' (nodup_cons.mpr ⟨hu, hvisited.1⟩) (forall_mem_cons.mpr ⟨?_, hvisited.2⟩)
    exact hvisit.entered u (mem_cons_self ..)

section Entry

variable (he : ∀ e, g.entry = some e → e < g.size)
include he

/-- When the walk is over no path is left, so it holds without exceptions. -/
theorem walk_descent : Walk.Descent g g.walk g.walk := by
  refine (follows_entry he).descent g.ready_start ⟨by simp, by simp⟩ ?_ ?_ (by simp) ?_
  · intro v hv
    cases hv
  · exact ⟨fun _ hx => hx, fun _ hb _ => .inl hb⟩
  · exact ⟨by simp, by simp, by simp, by simp⟩

variable {v : Nat}

theorem mem_entered_iff : v ∈ g.walk.entered ↔ g.Live v := by
  constructor
  · intro hv
    rcases (walk_descent he).reached v hv with ⟨e, hentry, hdown⟩
    exact ⟨e, hentry, hdown.reaches⟩
  · rintro ⟨e, hentry, hv⟩
    exact mem_entered_of_reaches hentry (he e hentry) hv

/-- The target of an edge that is cut was on the path, so it reaches the source. -/
theorem closes_cycle {u : Nat} (h : (u, v) ∈ g.cut.backEdges) :
    g.Live u ∧ v ∈ g.successors u ∧ g.Reaches v u := by
  have hclosing := mem_reverse.mp h
  rcases ((follows_entry he).sound g.ready_start).edges _ hclosing with ⟨hedge, hentered⟩
  exact ⟨(mem_entered_iff he).mp hentered, hedge, ((walk_descent he).back _ hclosing).reaches⟩

theorem nodup_left : g.walk.left.Nodup :=
  ((follows_entry he).nodup_left nodup_nil (by simp)).1

theorem mem_left_iff : v ∈ g.walk.left ↔ g.Live v := by
  rw [← mem_entered_iff he]
  constructor
  · exact ((follows_entry he).nodup_left nodup_nil (by simp)).2 v
  · exact fun hv => ((walk_ordered he).gone v hv).resolve_left not_mem_nil

end Entry

end FlowGraph

/-- Cutting is exact. What is left of a graph has no cycle. Its edges and the ones that
    were cut are different, and together they are the edges out of nodes that the entry
    reaches. The entry still reaches these nodes. Every edge that was cut closes a cycle
    with edges that are left, so without cycles that the entry reaches none is cut. -/
theorem cut_exact (g : FlowGraph) (he : ∀ e, g.entry = some e → e < g.size) :
    g.cut.graph.Acyclic ∧
      g.cut.backEdges.Nodup ∧
      (∀ u v, v ∈ g.cut.graph.successors u → (u, v) ∉ g.cut.backEdges) ∧
      (∀ u v, v ∈ g.cut.graph.successors u ∨ (u, v) ∈ g.cut.backEdges ↔
        g.Live u ∧ v ∈ g.successors u) ∧
      (∀ v, g.Live v → g.cut.graph.Live v) ∧
      (∀ u h, (u, h) ∈ g.cut.backEdges → g.cut.graph.Reaches h u) ∧
      ((∀ v, g.Live v → ¬ Relation.TransGen (fun u v => v ∈ g.successors u) v v) →
        g.cut.backEdges = []) := by
  have hsound := (FlowGraph.follows_entry he).sound g.ready_start
  have hdescent := FlowGraph.walk_descent he
  have hback : ∀ {b}, b ∈ g.cut.backEdges ↔ b ∈ g.walk.closing := mem_reverse
  refine ⟨FlowGraph.acyclic_cut he, nodup_reverse.mpr hsound.nodup, fun u v hv hmem => ?_,
    fun u v => ?_, fun v hv => ?_, fun u h hmem => ?_, fun hacyclic => ?_⟩
  · exact (FlowGraph.mem_successors_cut_iff.mp hv).2.2 (hback.mp hmem)
  · rw [FlowGraph.mem_successors_cut_iff, hback, ← FlowGraph.mem_entered_iff he]
    constructor
    · rintro (⟨hv, hu, _⟩ | hmem)
      · exact ⟨hu, hv⟩
      · exact (hsound.edges _ hmem).symm
    · rintro ⟨hu, hv⟩
      by_cases hmem : (u, v) ∈ g.walk.closing
      · exact .inr hmem
      · exact .inl ⟨hv, hu, hmem⟩
  · rcases hdescent.reached v ((FlowGraph.mem_entered_iff he).mpr hv) with ⟨e, hentry, hdown⟩
    exact ⟨e, hentry, hdown.reaches_cut⟩
  · exact (hdescent.back _ (hback.mp hmem)).reaches_cut
  · -- The edge and the way back to its source would be a cycle.
    refine eq_nil_iff_forall_not_mem.mpr fun b hmem => ?_
    have hmem := hback.mp hmem
    rcases hsound.edges b hmem with ⟨hedge, hentered⟩
    refine hacyclic b.1 ((FlowGraph.mem_entered_iff he).mp hentered) ?_
    exact .head' hedge (hdescent.back b hmem).reaches

/-- A loop with two entries, one of which is its own loop, and a circle that cannot be
    entered. -/
def tangled : FlowGraph :=
  .ofEdges 5 (some 0) [(0, 1), (0, 2), (1, 2), (2, 1), (2, 2), (3, 4), (4, 3), (4, 1)]

theorem cut_exact_tangled : (∀ e, tangled.entry = some e → e < tangled.size) ∧
    tangled.cut.backEdges = [(2, 1), (2, 2)] ∧
    tangled.cut.graph.Acyclic ∧ tangled.cut.graph.Reaches 1 2 := by
  have he : ∀ e, tangled.entry = some e → e < tangled.size := by
    intro e h
    obtain rfl : 0 = e := Option.some.inj h
    decide
  rcases cut_exact tangled he with ⟨hacyclic, _, _, _, _, hcloses, _⟩
  exact ⟨he, by decide, hacyclic, hcloses 2 1 (by decide)⟩

end Vouch
