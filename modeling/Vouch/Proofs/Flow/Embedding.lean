import Vouch.Proofs.Flow.Walk

/-!
# Graphs With Longer Ways

When commands of a body are replaced by several commands each, what was one node is a
corridor: places that are passed one after the other, with no way in but the first and
no choice before the last. Edges lead from the end of one corridor to the beginning of
another.

## Main definitions

* `FlowGraph.Corridor`: Places that are passed one after the other.
* `FlowGraph.Embedding`: Where the nodes of a graph are in another.
* `FlowGraph.Embedding.Mirrors`: A walk went along with another.

## Theorems

* `FlowGraph.Embedding.mirrors_walk`: The walks go along with each other.
* `FlowGraph.Embedding.mem_cut_image`: Edges that are not cut stay so.
-/

namespace Vouch

open List

namespace FlowGraph

/-- Places that are passed one after the other, from the first to the last. -/
inductive Corridor (g : FlowGraph) : Nat → List Nat → Nat → Prop where
  | here (v : Nat) : Corridor g v [v] v
  | step {u v last : Nat} {places : List Nat} : g.successors u = [v] → u ∉ places →
      Corridor g v places last → Corridor g u (u :: places) last

variable {g g' : FlowGraph}

namespace Corridor

variable {first last : Nat} {places : List Nat}

theorem first_mem (h : Corridor g first places last) : first ∈ places := by
  cases h <;> simp

theorem last_mem (h : Corridor g first places last) : last ∈ places := by
  induction h with
  | here v => exact mem_singleton_self v
  | step _ _ _ ih => exact mem_cons_of_mem _ ih

theorem reaches (h : Corridor g first places last) : ∀ x ∈ places, g.Reaches first x := by
  induction h with
  | here v => exact forall_mem_singleton.mpr .refl
  | step hnext _ _ ih =>
    refine forall_mem_cons.mpr ⟨.refl, fun x hx => ?_⟩
    exact Relation.ReflTransGen.head (by rw [hnext]; simp) (ih x hx)

theorem head?_reverse (h : Corridor g first places last) (path : List Nat) :
    (places.reverse ++ path).head? = some last := by
  induction h generalizing path with
  | here v => rfl
  | step _ _ _ ih =>
    rw [reverse_cons, append_assoc]
    exact ih _

theorem of_range' {a : Nat} : ∀ {n : Nat}, (∀ i < n, g.successors (a + i) = [a + i + 1]) →
    Corridor g a (List.range' a (n + 1)) (a + n) := by
  intro n
  induction n generalizing a with
  | zero => exact fun _ => .here a
  | succ n ih =>
    intro hnext
    have hrest : Corridor g (a + 1) (List.range' (a + 1) (n + 1)) (a + 1 + n) := by
      refine ih fun i hi => ?_
      rw [show a + 1 + i = a + (i + 1) by omega]
      exact hnext (i + 1) (by omega)
    rw [range'_succ, show a + (n + 1) = a + 1 + n by omega]
    exact .step (hnext 0 (by omega)) (by simp) hrest

end Corridor

section Walks

variable {path us vs : List Nat} {w w' : Walk}

theorem Follows.of_append (h : Follows g path (us ++ vs) w w') :
    ∃ w₁, Follows g path us w w₁ ∧ Follows g path vs w₁ w' := by
  induction us generalizing w with
  | nil => exact ⟨w, .done, h⟩
  | cons u us ih =>
    cases h with
    | close hu hrest =>
      rcases ih hrest with ⟨w₁, h₁, h₂⟩
      exact ⟨w₁, .close hu h₁, h₂⟩
    | pass hu hentered hrest =>
      rcases ih hrest with ⟨w₁, h₁, h₂⟩
      exact ⟨w₁, .pass hu hentered h₁, h₂⟩
    | enter hu hnew hvisit hrest =>
      rcases ih hrest with ⟨w₁, h₁, h₂⟩
      exact ⟨w₁, .enter hu hnew hvisit h₁, h₂⟩

theorem Follows.of_corridor {first last : Nat} {places : List Nat}
    (hc : Corridor g first places last) : ∀ {path : List Nat} {w w' : Walk},
    (∀ x ∈ places, x ∉ path ∧ x ∉ w.entered) → Follows g path (first :: us) w w' →
    ∃ w₁, Follows g (places.reverse ++ path) (g.successors last)
        { w with entered := places.reverse ++ w.entered } w₁ ∧
      Follows g path us { w₁ with left := places ++ w₁.left } w' := by
  induction hc generalizing us with
  | here v =>
    intro path w w' hnew h
    have hv := hnew v (by simp)
    cases h with
    | close hmem => exact absurd hmem hv.1
    | pass _ hmem => exact absurd hmem hv.2
    | enter _ _ hvisit hrest => exact ⟨_, hvisit, hrest⟩
  | @step u v last places hnext hu _ ih =>
    intro path w w' hnew h
    have hfirst := hnew u (by simp)
    cases h with
    | close hmem => exact absurd hmem hfirst.1
    | pass _ hmem => exact absurd hmem hfirst.2
    | enter _ _ hvisit hrest =>
      -- The visit of `u` is the walk through the rest of the corridor.
      rw [hnext] at hvisit
      have hnew' : ∀ x ∈ places, x ∉ u :: path ∧ x ∉ u :: w.entered := by
        intro x hx
        have hxu : x ≠ u := fun heq => hu (heq ▸ hx)
        have hx := hnew x (by simp [hx])
        exact ⟨by simp [hxu, hx.1], by simp [hxu, hx.2]⟩
      rcases ih hnew' hvisit with ⟨w₁, hend, hdone⟩
      cases hdone
      rw [reverse_cons, append_assoc, append_assoc]
      exact ⟨w₁, hend, hrest⟩

theorem Follows.forward {T : Nat → Prop} (hforward : ∀ u, T u → ∀ v ∈ g.successors u, T v ∧ u < v)
    (h : Follows g path us w w') (hus : ∀ u ∈ us, T u)
    (hpath : ∀ x ∈ path, T x → ∀ u ∈ us, x < u) :
    w'.closing = w.closing ∧ ∀ x, ¬ T x → (x ∈ w'.entered ↔ x ∈ w.entered) := by
  induction h with
  | done => exact ⟨rfl, fun _ _ => Iff.rfl⟩
  | @close path us v u _ _ hu _ _ =>
    -- The node would come after itself.
    exact absurd (hpath u hu (hus u (by simp)) u (by simp)) (Nat.lt_irrefl u)
  | pass _ _ _ ih =>
    exact ih (fun x hx => hus x (by simp [hx])) fun x hx hT y hy => hpath x hx hT y (by simp [hy])
  | @enter path us u w w₁ w' _ _ _ _ ih ih' =>
    have hu := hus u (by simp)
    have hvisit := ih (fun v hv => (hforward u hu v hv).1) fun x hx hT v hv => by
      have huv := (hforward u hu v hv).2
      rcases mem_cons.mp hx with rfl | hx
      · exact huv
      · exact Nat.lt_trans (hpath x hx hT u (by simp)) huv
    have hrest := ih' (fun x hx => hus x (by simp [hx]))
      fun x hx hT y hy => hpath x hx hT y (by simp [hy])
    refine ⟨hrest.1.trans hvisit.1, fun x hx => ?_⟩
    have hxu : x ≠ u := fun heq => hx (heq ▸ hu)
    rw [hrest.2 x hx, hvisit.2 x hx, mem_cons]
    simp [hxu]

end Walks

/-- Where the nodes of a graph are in another one, where ways are longer. -/
structure Embedding (g g' : FlowGraph) where
  /-- Where edges to a node lead. -/
  start : Nat → Nat
  /-- Where edges out of a node begin. -/
  image : Nat → Nat
  /-- The places of a node. -/
  places : Nat → List Nat
  /-- The places on the way in. -/
  lead : List Nat
  /-- The places on the way out. -/
  Out : Nat → Prop
  corridor : ∀ v < g.size, Corridor g' (start v) (places v) (image v)
  disjoint : ∀ {u v x}, x ∈ places u → x ∈ places v → u = v
  notOut : ∀ {v x}, x ∈ places v → ¬ Out x
  lead_notOut : ∀ x ∈ lead, ¬ Out x
  lead_disjoint : ∀ {v x}, x ∈ places v → x ∉ lead
  /-- From the end of a corridor edges lead to others, and then perhaps out. -/
  successors_image : ∀ u < g.size, ∃ out, (∀ x ∈ out, Out x) ∧
    g'.successors (image u) = (g.successors u).map start ++ out
  forward : ∀ u, Out u → ∀ v ∈ g'.successors u, Out v ∧ u < v
  entry : ∀ e, g.entry = some e → ∃ e', g'.entry = some e' ∧
    Corridor g' e' (lead ++ places e) (image e)

namespace Embedding

variable (E : Embedding g g')

/-- Where an edge is. -/
def edge (e : Nat × Nat) : Nat × Nat :=
  (E.image e.1, E.start e.2)

/-- A walk of the second graph that went along with one of the first. -/
structure Mirrors (w w' : Walk) : Prop where
  entered : ∀ v, ∀ x ∈ E.places v, (x ∈ w'.entered ↔ v ∈ w.entered)
  closing : w'.closing = w.closing.map E.edge

/-- A path in the second graph that goes along with one in the first. -/
structure Along (path path' : List Nat) : Prop where
  places : ∀ v, ∀ x ∈ E.places v, (x ∈ path' ↔ v ∈ path)
  head : ∀ v, path.head? = some v → path'.head? = some (E.image v)
  notOut : ∀ x ∈ path', ¬ E.Out x

variable {E} {before path path' : List Nat} {u : Nat} {w : Walk}

theorem mem_places_append {v x : Nat} (hx : x ∈ E.places v) {xs' xs : List Nat}
    (hbefore : x ∉ before) (hxs : x ∈ xs' ↔ v ∈ xs) :
    x ∈ (before ++ E.places u).reverse ++ xs' ↔ v ∈ u :: xs := by
  have hplaces : x ∈ E.places u ↔ v = u := ⟨E.disjoint hx, fun heq => heq ▸ hx⟩
  simp [hbefore, hplaces, hxs]

theorem Mirrors.enter {w' : Walk} (h : E.Mirrors w w') (u : Nat)
    (hbefore : ∀ v, ∀ x ∈ E.places v, x ∉ before) :
    E.Mirrors { w with entered := u :: w.entered }
      { w' with entered := (before ++ E.places u).reverse ++ w'.entered } :=
  ⟨fun v x hx => mem_places_append hx (hbefore v x hx) (h.entered v x hx), h.closing⟩

theorem Mirrors.leave {w' : Walk} (h : E.Mirrors w w') (left left' : List Nat) :
    E.Mirrors { w with left := left } { w' with left := left' } :=
  ⟨h.entered, h.closing⟩

theorem Along.enter (h : E.Along path path') {first : Nat}
    (hbefore : ∀ v, ∀ x ∈ E.places v, x ∉ before) (hout : ∀ x ∈ before, ¬ E.Out x)
    (hc : Corridor g' first (before ++ E.places u) (E.image u)) :
    E.Along (u :: path) ((before ++ E.places u).reverse ++ path') := by
  refine ⟨fun v x hx => mem_places_append hx (hbefore v x hx) (h.places v x hx), ?_, ?_⟩
  · rintro v hv
    cases hv
    exact hc.head?_reverse path'
  · intro x hx
    simp only [mem_append, mem_reverse] at hx
    rcases hx with (hx | hx) | hx
    · exact hout x hx
    · exact E.notOut hx
    · exact h.notOut x hx

theorem mirrors_out (hu : u < g.size) {w₁' w₂' : Walk} (hpath : ∀ x ∈ path', ¬ E.Out x)
    (h : ∀ w₁, Follows g' path' ((g.successors u).map E.start) w₁' w₁ → E.Mirrors w w₁)
    (hfollows : Follows g' path' (g'.successors (E.image u)) w₁' w₂') : E.Mirrors w w₂' := by
  rcases E.successors_image u hu with ⟨out, hout, hsucc⟩
  rw [hsucc] at hfollows
  rcases hfollows.of_append with ⟨w₁, hedges, hways⟩
  have hw₁ := h w₁ hedges
  have hsame := hways.forward E.forward hout fun x hx hT => absurd hT (hpath x hx)
  refine ⟨fun v x hx => ?_, hsame.1.trans hw₁.closing⟩
  rw [hsame.2 x (E.notOut hx)]
  exact hw₁.entered v x hx

theorem mirrors {us : List Nat} {w₁ : Walk} (h : Follows g path us w w₁) :
    (∀ u ∈ us, u < g.size) → ∀ {path' : List Nat} {w' w₁' : Walk}, E.Along path path' →
      E.Mirrors w w' → Follows g' path' (us.map E.start) w' w₁' → E.Mirrors w₁ w₁' := by
  induction h with
  | done =>
    intro _ path' w' w₁' _ hw h'
    cases h'
    exact hw
  | @close path us v u w w₁ hu _ ih =>
    intro hus path' w' w₁' hpath hw h'
    rw [forall_mem_cons] at hus
    have hu' := (hpath.places u _ (E.corridor u hus.1).first_mem).mpr hu
    rw [map_cons] at h'
    cases h' with
    | @close _ _ v' _ _ _ _ hrest =>
      -- On both paths the walk is at the place where the edge begins.
      obtain rfl : v' = E.image v := by simpa using hpath.head v rfl
      have hclosing : E.Mirrors { w with closing := (v, u) :: w.closing }
          { w' with closing := (E.image v, E.start u) :: w'.closing } :=
        ⟨hw.entered, by rw [hw.closing, map_cons, edge]⟩
      exact ih hus.2 hpath hclosing hrest
    | pass hnot | enter hnot => exact absurd hu' hnot
  | @pass path us u w w₁ hu hentered _ ih =>
    intro hus path' w' w₁' hpath hw h'
    rw [forall_mem_cons] at hus
    have hfirst := (E.corridor u hus.1).first_mem
    rw [map_cons] at h'
    cases h' with
    | close hmem => exact absurd ((hpath.places u _ hfirst).mp hmem) hu
    | pass _ _ hrest => exact ih hus.2 hpath hw hrest
    | enter _ hnew => exact absurd ((hw.entered u _ hfirst).mpr hentered) hnew
  | @enter path us u w w₀ w₁ hu hnew _ _ ih ih' =>
    intro hus path' w' w₁' hpath hw h'
    rw [forall_mem_cons] at hus
    have hc := E.corridor u hus.1
    have hunseen : ∀ x ∈ E.places u, x ∉ path' ∧ x ∉ w'.entered := fun x hx =>
      ⟨fun hmem => hu ((hpath.places u x hx).mp hmem),
        fun hmem => hnew ((hw.entered u x hx).mp hmem)⟩
    rcases h'.of_corridor hc hunseen with ⟨w₀', hvisit, hrest⟩
    have hpath₀ : E.Along (u :: path) ((E.places u).reverse ++ path') :=
      hpath.enter (fun _ _ _ => not_mem_nil) (by simp) hc
    have hw' : E.Mirrors { w with entered := u :: w.entered }
        { w' with entered := (E.places u).reverse ++ w'.entered } :=
      hw.enter u fun _ _ _ => not_mem_nil
    have hw₀ : E.Mirrors w₀ w₀' := mirrors_out hus.1 hpath₀.notOut
      (fun _ hedges => ih (fun x hx => lt_size_of_mem_successors hx) hpath₀ hw' hedges) hvisit
    exact ih' hus.2 hpath (hw₀.leave _ _) hrest

section Entry

variable (E) {e : Nat} (hentry : g.entry = some e) (he : e < g.size)
  (he' : ∀ e', g'.entry = some e' → e' < g'.size)
include hentry he he'

/-- The walks of the two graphs list the same edges as closing. -/
theorem mirrors_walk : E.Mirrors g.walk g'.walk := by
  rcases E.entry e hentry with ⟨e', hentry', hc⟩
  have hwalk := follows_walk hentry he
  have hwalk' := follows_walk hentry' (he' e' hentry')
  generalize g.walk = w at hwalk ⊢
  generalize g'.walk = w' at hwalk' ⊢
  -- The second walk comes to the first node by the way in.
  rcases hwalk'.of_corridor hc (by simp) with ⟨w₀', hvisit, hdone⟩
  cases hwalk with
  | pass _ hmem => exact absurd hmem not_mem_nil
  | enter _ _ hvisits hdone' =>
    have hbefore : ∀ v, ∀ x ∈ E.places v, x ∉ E.lead := fun _ _ => E.lead_disjoint
    have hstart : E.Along [] [] := ⟨by simp, by simp, by simp⟩
    have hpath := hstart.enter hbefore E.lead_notOut hc
    have hempty : E.Mirrors {} {} := ⟨by simp, rfl⟩
    have hw₀ := mirrors_out he hpath.notOut (fun _ hedges => mirrors hvisits
      (fun x hx => lt_size_of_mem_successors hx) hpath (hempty.enter e hbefore) hedges) hvisit
    cases hdone'
    cases hdone
    exact hw₀.leave _ _

variable {v : Nat}

omit hentry he he' in
theorem reaches_start {u : Nat} (h : g.Reaches u v) (hu : u < g.size) :
    g'.Reaches (E.start u) (E.start v) := by
  induction h with
  | refl => exact .refl
  | @tail v w hv hw ih =>
    have hc := E.corridor v (Reaches.lt_size hv hu)
    rcases E.successors_image v (Reaches.lt_size hv hu) with ⟨out, _, hsucc⟩
    refine (ih.trans (hc.reaches _ hc.last_mem)).tail ?_
    rw [hsucc]
    exact mem_append_left _ (mem_map_of_mem hw)

omit he' in
theorem reaches_places {x : Nat} (hv : g.Reaches e v) (hx : x ∈ E.places v) :
    ∃ e', g'.entry = some e' ∧ g'.Reaches e' x := by
  rcases E.entry e hentry with ⟨e', hentry', hc⟩
  have hstart := hc.reaches (E.start e) (mem_append_right _ (E.corridor e he).first_mem)
  have hplace := (E.corridor v (hv.lt_size he)).reaches x hx
  exact ⟨e', hentry', (hstart.trans (E.reaches_start hv he)).trans hplace⟩

/-- An edge that closes no cycle still closes none at the end of its corridor. -/
theorem mem_cut_image {u : Nat} (hu : g.Reaches e u) (hv : v ∈ g.successors u)
    (hopen : (u, v) ∉ g.walk.closing) : E.start v ∈ g'.cut.graph.successors (E.image u) := by
  have hlt := hu.lt_size he
  have himage := (E.corridor u hlt).last_mem
  rcases E.reaches_places hentry he hu himage with ⟨e', hentry', hreach⟩
  rcases E.successors_image u hlt with ⟨out, _, hsucc⟩
  refine mem_successors_cut hentry' (he' e' hentry') hreach ?_ ?_
  · rw [hsucc]
    exact mem_append_left _ (mem_map_of_mem hv)
  · rw [(E.mirrors_walk hentry he he').closing, mem_map]
    rintro ⟨⟨x, y⟩, hmem, heq⟩
    rcases Prod.mk.inj heq with ⟨hx, hy⟩
    -- Both ends of the edge are ends of one edge only.
    have hxy := mem_successors_of_closing hentry he hmem
    obtain rfl : x = u := E.disjoint (E.corridor x (lt_size_of_edge hxy)).last_mem (hx ▸ himage)
    have hstart := (E.corridor v (lt_size_of_mem_successors hv)).first_mem
    obtain rfl : y = v :=
      E.disjoint (E.corridor y (lt_size_of_mem_successors hxy)).first_mem (hy ▸ hstart)
    exact hopen hmem

theorem mem_cut_inner {x y : Nat} (hv : g.Reaches e v) (hx : x ∈ E.places v) (hne : x ≠ E.image v)
    (hy : y ∈ g'.successors x) : y ∈ g'.cut.graph.successors x := by
  rcases E.reaches_places hentry he hv hx with ⟨e', hentry', hreach⟩
  refine mem_successors_cut hentry' (he' e' hentry') hreach hy ?_
  rw [(E.mirrors_walk hentry he he').closing, mem_map]
  rintro ⟨⟨a, b⟩, hmem, heq⟩
  -- Edges of the first graph begin at the end of a corridor.
  have ha : E.image a = x := (Prod.mk.inj heq).1
  have hab := mem_successors_of_closing hentry he hmem
  have himage := (E.corridor a (lt_size_of_edge hab)).last_mem
  rw [ha] at himage
  obtain rfl : a = v := E.disjoint himage hx
  exact hne ha.symm

end Entry

end Embedding

end FlowGraph

end Vouch
