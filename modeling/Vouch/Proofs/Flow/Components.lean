import Vouch.Flow.Component
import Vouch.Proofs.Flow.Cut

/-!
# Components Are Classes of Mutual Reach

A sweep goes back along edges from its root and stays among nodes that have no
component, so what it collects leads to the root. That the root leads to it is a matter
of the order: what has no component was left by the walk no later than the root.

## Main definitions

* `Sweep.Collects`: What a sweep has collected.
* `Components.Found`: The components found so far.
* `LoopAnalysis.Exact`: Components are classes of nodes that reach each other.

## Theorems

* `Components.found_components`: All components are found.
* `analyseLoops_exact`: Loops are analysed on these classes.
-/

namespace Vouch

open List

theorem getElem?_insert {m : Std.TreeMap Nat Nat} {u k x : Nat} :
    (m.insert u k)[x]? = if x = u then some k else m[x]? := by
  rw [Std.TreeMap.getElem?_insert]
  simp only [Std.compare_eq_iff_eq, @eq_comm Nat u x]

namespace Sweep

section Meeting

variable {k v : Nat} {us : List Nat}

theorem meet_of_none {s : Sweep} {u : Nat} (h : s.ofNode[u]? = none) :
    s.meet k v u = { s with ofNode := s.ofNode.insert u k, todo := u :: s.todo } := by
  rw [meet, h]

theorem meet_of_some {s : Sweep} {u j : Nat} (h : s.ofNode[u]? = some j) :
    s.meet k v u = if j = k then s else { s with entryPoints := s.entryPoints.insert v } := by
  rw [meet, h]

theorem foldl_meet (hnodup : us.Nodup) (s : Sweep) :
    (us.foldl (meet k v) s).members = s.members ∧
      (us.foldl (meet k v) s).todo = (us.filter fun u => s.ofNode[u]?.isNone).reverse ++ s.todo ∧
      ∀ x, (us.foldl (meet k v) s).ofNode[x]? =
        if x ∈ us ∧ s.ofNode[x]? = none then some k else s.ofNode[x]? := by
  induction us generalizing s with
  | nil => simp
  | cons u us ih =>
    rw [nodup_cons] at hnodup
    rcases ih hnodup.2 (s.meet k v u) with ⟨hmembers, htodo, hof⟩
    rw [foldl_cons, hmembers, htodo]
    simp only [hof]
    cases hu : s.ofNode[u]? with
    | none =>
      rw [meet_of_none hu]
      have hne : ∀ x ∈ us, x ≠ u := fun x hx heq => hnodup.1 (heq ▸ hx)
      have hfilter : us.filter (fun x => (s.ofNode.insert u k)[x]?.isNone) =
          us.filter fun x => s.ofNode[x]?.isNone := by
        refine filter_congr fun x hx => ?_
        rw [getElem?_insert, if_neg (hne x hx)]
      refine ⟨rfl, ?_, fun x => ?_⟩
      · rw [hfilter, filter_cons_of_pos (by simp [hu])]
        simp
      · rw [getElem?_insert]
        by_cases hx : x = u
        · simp [hx, hu]
        · simp [hx]
    | some j =>
      have hsame : (s.meet k v u).members = s.members ∧ (s.meet k v u).todo = s.todo ∧
          (s.meet k v u).ofNode = s.ofNode := by
        rw [meet_of_some hu]
        split <;> exact ⟨rfl, rfl, rfl⟩
      rw [hsame.1, hsame.2.1, hsame.2.2]
      refine ⟨rfl, ?_, fun x => ?_⟩
      · rw [filter_cons_of_neg (by simp [hu])]
      · by_cases hx : x = u
        · simp [hx, hu]
        · simp [hx]

theorem mem_entryPoints_foldl_meet (s : Sweep) {x : Nat} :
    x ∈ (us.foldl (meet k v) s).entryPoints ↔
      x ∈ s.entryPoints ∨ x = v ∧ ∃ u ∈ us, ∃ j, s.ofNode[u]? = some j ∧ j ≠ k := by
  induction us generalizing s with
  | nil => simp
  | cons u us ih =>
    rw [foldl_cons, ih]
    cases hu : s.ofNode[u]? with
    | none =>
      rw [meet_of_none hu]
      -- A node that has just joined is not in another component.
      have hother : ∀ y j : Nat, (s.ofNode.insert u k)[y]? = some j ∧ j ≠ k ↔
          s.ofNode[y]? = some j ∧ j ≠ k := by
        intro y j
        rw [getElem?_insert]
        by_cases hy : y = u
        · simpa [hy, hu] using fun h => h.symm
        · simp [hy]
      simp [hother, hu]
    | some j =>
      rw [meet_of_some hu]
      by_cases hj : j = k
      · simp [hj, hu]
      · have hinsert : x ∈ s.entryPoints.insert v ↔ x = v ∨ x ∈ s.entryPoints := by
          rw [Std.TreeSet.mem_insert, Std.compare_eq_iff_eq, eq_comm]
        simp only [if_neg hj, hinsert, exists_mem_cons_iff, hu]
        constructor
        · rintro ((hx | hx) | hx)
          · exact .inr ⟨hx, .inl ⟨j, rfl, hj⟩⟩
          · exact .inl hx
          · exact .inr ⟨hx.1, .inr hx.2⟩
        · rintro (hx | ⟨hx, _⟩)
          · exact .inl (.inr hx)
          · exact .inl (.inl hx)

end Meeting

/-- A sweep of component `k` from `root`, begun with the components `c`. Nodes of the
    component had none and lead to the root through nodes that had none. -/
structure Collects (before : Nat → List Nat) (c : Components) (k root : Nat) (s : Sweep) :
    Prop where
  ofNode : ∀ x, s.ofNode[x]? = if x ∈ s.todo ++ s.members then some k else c.component? x
  fresh : ∀ x ∈ s.todo ++ s.members, c.component? x = none
  nodup : (s.todo ++ s.members).Nodup
  root_mem : root ∈ s.todo ++ s.members
  way : ∀ x ∈ s.todo ++ s.members,
    Relation.ReflTransGen (fun a b => a ∈ before b ∧ c.component? a = none) x root
  closed : ∀ x ∈ s.members, ∀ u ∈ before x, s.ofNode[u]?.isSome
  entryPoints : ∀ x, x ∈ s.entryPoints ↔
    x ∈ c.entryPoints ∨ x ∈ s.members ∧ ∃ u ∈ before x, (c.component? u).isSome

section Collecting

variable {before : Nat → List Nat} {c : Components} {k root : Nat} {s : Sweep}
  (hbefore : ∀ v, (before v).Nodup) (hk : ∀ u, c.component? u ≠ some k)

theorem Collects.start (h : c.component? root = none) : Collects before c k root
    { ofNode := c.ofNode.insert root k, entryPoints := c.entryPoints, todo := [root] } where
  ofNode x := by
    rw [getElem?_insert]
    simp [Components.component?]
  fresh x hx := by
    obtain rfl : x = root := by simpa using hx
    exact h
  nodup := by simp
  root_mem := by simp
  way x hx := by
    obtain rfl : x = root := by simpa using hx
    exact .refl
  closed x hx := absurd hx not_mem_nil
  entryPoints x := by simp

theorem Collects.ofNode_eq_none_iff (h : Collects before c k root s) {x : Nat} :
    s.ofNode[x]? = none ↔ x ∉ s.todo ++ s.members ∧ c.component? x = none := by
  rw [h.ofNode]
  by_cases hx : x ∈ s.todo ++ s.members <;> simp [hx]

section Look

variable {v : Nat} {todo : List Nat} (htodo : s.todo = v :: todo)
include hbefore

theorem members_look : (look before k v s).members = v :: s.members :=
  (foldl_meet (hbefore v) { s with members := v :: s.members }).1

include htodo

theorem perm_look : ((look before k v { s with todo }).todo ++
    (look before k v { s with todo }).members).Perm
      ((before v).filter (fun u => s.ofNode[u]?.isNone) ++ (s.todo ++ s.members)) := by
  rw [members_look hbefore, look, (foldl_meet (hbefore v) _).2.1, htodo, append_assoc,
    cons_append]
  exact (reverse_perm _).append perm_middle

theorem mem_look {x : Nat} : x ∈ (look before k v { s with todo }).todo ++
    (look before k v { s with todo }).members ↔
      (x ∈ before v ∧ s.ofNode[x]? = none) ∨ x ∈ s.todo ++ s.members := by
  rw [(perm_look hbefore htodo).mem_iff, mem_append, mem_filter,
    Option.isNone_iff_eq_none]

include hk

theorem Collects.mem_entryPoints_look (h : Collects before c k root s) {x : Nat} :
    x ∈ (look before k v { s with todo }).entryPoints ↔ x ∈ c.entryPoints ∨
      x ∈ (look before k v { s with todo }).members ∧
        ∃ u ∈ before x, (c.component? u).isSome := by
  have hother : ∀ u, (∃ j, s.ofNode[u]? = some j ∧ j ≠ k) ↔ (c.component? u).isSome := by
    intro u
    rw [h.ofNode]
    by_cases hu : u ∈ s.todo ++ s.members
    · simp [hu, h.fresh u hu]
    · simp only [if_neg hu, Option.isSome_iff_exists]
      exact exists_congr fun j => and_iff_left_of_imp fun hj hjk => hk u (hjk ▸ hj)
  rw [members_look hbefore, mem_cons, look, mem_entryPoints_foldl_meet]
  simp only [hother, h.entryPoints]
  constructor
  · rintro ((hx | ⟨hx, hu⟩) | ⟨rfl, hu⟩)
    · exact .inl hx
    · exact .inr ⟨.inr hx, hu⟩
    · exact .inr ⟨.inl rfl, hu⟩
  · rintro (hx | ⟨rfl | hx, hu⟩)
    · exact .inl (.inl hx)
    · exact .inr ⟨rfl, hu⟩
    · exact .inl (.inr ⟨hx, hu⟩)

theorem Collects.look (h : Collects before c k root s) :
    Collects before c k root (look before k v { s with todo }) := by
  have hmem : ∀ x, x ∈ (Sweep.look before k v { s with todo }).todo ++
      (Sweep.look before k v { s with todo }).members ↔
        (x ∈ before v ∧ s.ofNode[x]? = none) ∨ x ∈ s.todo ++ s.members := fun x =>
    mem_look hbefore htodo
  have hof : ∀ x, (Sweep.look before k v { s with todo }).ofNode[x]? =
      if x ∈ before v ∧ s.ofNode[x]? = none then some k else s.ofNode[x]? :=
    (foldl_meet (hbefore v) { s with todo, members := v :: s.members }).2.2
  refine ⟨fun x => ?_, fun x hx => ?_, ?_, (hmem root).mpr (.inr h.root_mem), fun x hx => ?_,
    fun x hx u hu => ?_, fun x => h.mem_entryPoints_look hbefore hk htodo⟩
  · rw [hof]
    by_cases hx : x ∈ before v ∧ s.ofNode[x]? = none
    · rw [if_pos hx, if_pos ((hmem x).mpr (.inl hx))]
    · rw [if_neg hx, h.ofNode]
      simp only [hmem, hx, false_or]
  · rcases (hmem x).mp hx with ⟨_, hnone⟩ | hx
    · exact (h.ofNode_eq_none_iff.mp hnone).2
    · exact h.fresh x hx
  · rw [(perm_look hbefore htodo).nodup_iff, nodup_append]
    refine ⟨(hbefore v).filter _, h.nodup, ?_⟩
    rintro x hx y hy rfl
    have hnone := Option.isNone_iff_eq_none.mp (mem_filter.mp hx).2
    exact (h.ofNode_eq_none_iff.mp hnone).1 hy
  · rcases (hmem x).mp hx with ⟨hbv, hnone⟩ | hx
    · have hv : v ∈ s.todo ++ s.members := by simp [htodo]
      exact .head ⟨hbv, (h.ofNode_eq_none_iff.mp hnone).2⟩ (h.way v hv)
    · exact h.way x hx
  · rw [hof]
    split
    · rfl
    · next hnot =>
      rw [members_look hbefore] at hx
      rcases mem_cons.mp hx with rfl | hx
      · rw [Option.isSome_iff_ne_none]
        exact fun hnone => hnot ⟨hu, hnone⟩
      · exact h.closed x hx u hu

end Look

include hbefore hk

theorem Collects.run : ∀ (fuel : Nat) {s : Sweep}, Collects before c k root s →
    Collects before c k root (Sweep.run before k fuel s) ∧
      ((Sweep.run before k fuel s).todo = [] ∨
        (Sweep.run before k fuel s).members.length = s.members.length + fuel)
  | 0, _, h => ⟨h, .inr rfl⟩
  | fuel + 1, s, h => by
    unfold Sweep.run
    split
    · next htodo => exact ⟨h, .inl htodo⟩
    · next v todo htodo =>
      have ih := Collects.run fuel (h.look hbefore hk htodo)
      refine ⟨ih.1, ih.2.imp_right fun hlen => ?_⟩
      have hmembers : (Sweep.look before k v { s with todo }).members = v :: s.members :=
        members_look hbefore
      rw [hlen, hmembers, length_cons]
      omega

end Collecting

end Sweep

namespace FlowGraph

variable {g : FlowGraph}

/-- The predecessors that a sweep looks at. -/
def livePredecessors (g : FlowGraph) (v : Nat) : List Nat :=
  (g.predecessorTable.getD v []).filter (Std.TreeSet.ofList g.walk.left : Nodes).contains

theorem predecessorTable_getD (v : Nat) : g.predecessorTable.getD v [] = g.predecessors v := by
  by_cases hv : v < g.size
  · simp [predecessorTable, nodes, hv]
  · have hnil : g.predecessors v = [] := by
      refine eq_nil_iff_forall_not_mem.mpr fun u hu => hv ?_
      exact lt_size_of_mem_successors (mem_predecessors.mp hu)
    rw [hnil]
    simp [predecessorTable, nodes, hv]

theorem nodup_livePredecessors (g : FlowGraph) (v : Nat) : (g.livePredecessors v).Nodup := by
  rw [livePredecessors, predecessorTable_getD]
  exact (g.nodup_predecessors v).filter _

theorem lt_size_of_mem_livePredecessors {u v : Nat} (h : u ∈ g.livePredecessors v) :
    u < g.size := by
  rw [livePredecessors, predecessorTable_getD] at h
  exact lt_size_of_edge (mem_predecessors.mp (mem_filter.mp h).1)

section Order

variable (he : ∀ e, g.entry = some e → e < g.size)
include he

theorem mem_livePredecessors {u v : Nat} :
    u ∈ g.livePredecessors v ↔ v ∈ g.successors u ∧ g.Live u := by
  rw [livePredecessors, predecessorTable_getD, mem_filter, mem_predecessors,
    Std.TreeSet.contains_iff_mem, mem_ofList, mem_left_iff he]

theorem exists_split_left {p q : List Nat} {r y : Nat} (hsplit : g.walk.left = p ++ r :: q)
    (hy : y ∈ q) : ∃ p' q', g.walk.left = p' ++ y :: q' ∧ r ∉ y :: q' := by
  have hnodup := nodup_left he
  obtain ⟨q₁, q₂, rfl⟩ := append_of_mem hy
  refine ⟨p ++ r :: q₁, q₂, by simp [hsplit], fun hr => ?_⟩
  rw [hsplit] at hnodup
  exact (nodup_cons.mp hnodup.of_append_right).1 (mem_append_right _ hr)

theorem reaches_of_left {p q : List Nat} {r x : Nat} (hsplit : g.walk.left = p ++ r :: q)
    (h : Relation.ReflTransGen (fun a b => b ∈ g.successors a ∧ a ∈ r :: q) x r) :
    g.Reaches r x := by
  -- The way to `r` leaves the nodes left no later than `y`, and then it is at a node
  -- that reaches `y`. So one has to know more than the statement: not only the node but
  -- all that are left after it and before `r` are reached.
  suffices hall : g.Reaches r x ∧ ∀ p' y q', g.walk.left = p' ++ y :: q' → r ∉ y :: q' →
      x ∈ y :: q' → g.Reaches r y from hall.1
  induction h using Relation.ReflTransGen.head_induction_on with
  | refl => exact ⟨.refl, fun _ _ _ _ hr hx => absurd hx hr⟩
  | @head a b hab _ ih =>
    have hexit : ∀ p' y q', g.walk.left = p' ++ y :: q' → r ∉ y :: q' → a ∈ y :: q' →
        g.Reaches r y := by
      intro p' y q' hsplit' hr ha
      rcases (walk_descent he).nested p' y q' hsplit' a ha b hab.1 with hb | hby
      · exact ih.2 p' y q' hsplit' hr hb
      · exact ih.1.trans hby.reaches
    refine ⟨?_, hexit⟩
    rcases mem_cons.mp hab.2 with rfl | ha
    · exact .refl
    · obtain ⟨p', q', hsplit', hr⟩ := exists_split_left he hsplit ha
      exact hexit p' a q' hsplit' hr (mem_cons_self ..)

end Order

end FlowGraph

namespace Components

variable {g : FlowGraph} {c : Components}

/-- The components found when the nodes in `done` have been dealt with. -/
structure Found (g : FlowGraph) (done : List Nat) (c : Components) : Prop where
  labelled : ∀ v k, c.component? v = some k ↔ v ∈ c.members k
  nodup : ∀ k, (c.members k).Nodup
  inhabited : ∀ k < c.count, c.members k ≠ []
  done : ∀ v ∈ done, (c.component? v).isSome
  live : ∀ v k, c.component? v = some k → g.Live v
  closed : ∀ v k, c.component? v = some k → ∀ u ∈ g.livePredecessors v, (c.component? u).isSome
  connected : ∀ u v j k, c.component? u = some j → c.component? v = some k →
    (j = k ↔ g.Reaches u v ∧ g.Reaches v u)
  entryPoints : ∀ v, v ∈ c.entryPoints ↔ ∃ k, c.component? v = some k ∧
    ∃ u ∈ g.livePredecessors v, c.component? u ≠ some k

theorem lt_count_of_mem {v k : Nat} (h : v ∈ c.members k) : k < c.count := by
  by_contra hk
  rw [members, getD_eq_getElem?_getD, getElem?_eq_none (Nat.le_of_not_lt hk)] at h
  cases h

theorem Found.component?_ne_count {done : List Nat} (h : Found g done c) (v : Nat) :
    c.component? v ≠ some c.count := fun hv =>
  Nat.lt_irrefl _ (lt_count_of_mem ((h.labelled v _).mp hv))

section Adding

variable {done rest : List Nat} {root : Nat} (he : ∀ e, g.entry = some e → e < g.size)

theorem Found.collects (h : Found g done c) (hroot : c.component? root = none)
    (hlt : root < g.size) :
    Sweep.Collects g.livePredecessors c c.count root (c.sweep g.livePredecessors g.size root) ∧
      (c.sweep g.livePredecessors g.size root).todo = [] := by
  have hrun := Sweep.Collects.run g.nodup_livePredecessors h.component?_ne_count g.size
    (Sweep.Collects.start hroot)
  unfold sweep
  generalize Sweep.run g.livePredecessors c.count g.size _ = s at hrun ⊢
  refine ⟨hrun.1, ?_⟩
  -- The bound is met only if all nodes have been looked at.
  have hsize : (s.todo ++ s.members).length ≤ g.size := by
    refine FlowGraph.length_le_size hrun.1.nodup fun x hx => ?_
    rcases Relation.ReflTransGen.cases_head (hrun.1.way x hx) with rfl | ⟨y, hy, _⟩
    · exact hlt
    · exact FlowGraph.lt_size_of_mem_livePredecessors hy.1
  rcases hrun.2 with htodo | hlen
  · exact htodo
  · rw [length_append, hlen, length_nil] at hsize
    exact eq_nil_of_length_eq_zero (by omega)

variable (hsplit : g.walk.left = done ++ root :: rest)
include he hsplit

theorem Found.connected_root (h : Found g done c) {x : Nat} (hx : Relation.ReflTransGen
    (fun a b => a ∈ g.livePredecessors b ∧ c.component? a = none) x root) :
    g.Reaches x root ∧ g.Reaches root x := by
  have hway : Relation.ReflTransGen (fun a b => b ∈ g.successors a ∧ a ∈ root :: rest) x root := by
    refine Relation.ReflTransGen.mono (fun a b hab => ?_) x root hx
    rcases (FlowGraph.mem_livePredecessors he).mp hab.1 with ⟨hedge, hlive⟩
    -- Nodes that were dealt with have a component.
    have hleft := (FlowGraph.mem_left_iff he).mpr hlive
    rw [hsplit, mem_append] at hleft
    refine ⟨hedge, hleft.resolve_left fun hdone => ?_⟩
    have hsome := h.done a hdone
    rw [hab.2] at hsome
    cases hsome
  exact ⟨Relation.ReflTransGen.mono (fun _ _ hab => hab.1) x root hway,
    FlowGraph.reaches_of_left he hsplit hway⟩

omit hsplit in
theorem Found.isSome_of_reaches (h : Found g done c) {u v : Nat} (hu : g.Live u)
    (huv : g.Reaches u v) (hv : (c.component? v).isSome) : (c.component? u).isSome := by
  induction huv using Relation.ReflTransGen.head_induction_on with
  | refl => exact hv
  | head hab _ ih =>
    obtain ⟨k, hk⟩ := Option.isSome_iff_exists.mp (ih (hu.trans (.single hab)))
    exact h.closed _ k hk _ ((FlowGraph.mem_livePredecessors he).mpr ⟨hab, hu⟩)

omit he hsplit in
theorem members_grow (s : Sweep) (k : Nat) :
    (c.grow s).members k = if k = c.count then s.members else c.members k := by
  unfold members grow count
  rw [getD_eq_getElem?_getD, getD_eq_getElem?_getD]
  by_cases hk : k = c.parts.length
  · simp [hk]
  · rw [if_neg hk]
    rcases Nat.lt_or_gt_of_ne hk with hlt | hgt
    · rw [getElem?_append_left hlt]
    · rw [getElem?_eq_none (by simpa using hgt.nat_succ_le),
        getElem?_eq_none (Nat.le_of_lt hgt)]

section Growing

variable {s : Sweep} (h : Found g done c)
  (hs : Sweep.Collects g.livePredecessors c c.count root s) (htodo : s.todo = [])

include hs htodo

variable {x : Nat}

omit he hsplit in
theorem component?_grow {k : Nat} : (c.grow s).component? x = some k ↔
    (x ∈ s.members ∧ k = c.count) ∨ c.component? x = some k := by
  have hof : (c.grow s).component? x = if x ∈ s.members then some c.count else c.component? x := by
    have hof := hs.ofNode x
    rwa [htodo, nil_append] at hof
  rw [hof]
  by_cases hx : x ∈ s.members
  · have hfresh := hs.fresh x (mem_append_right _ hx)
    simp [hx, hfresh, eq_comm]
  · simp [hx]

omit he hsplit in
theorem isSome_component?_grow : ((c.grow s).component? x).isSome ↔
    x ∈ s.members ∨ (c.component? x).isSome := by
  simp only [Option.isSome_iff_exists, component?_grow hs htodo, exists_or]
  simp

omit he hsplit htodo in
theorem not_mem_members (hx : (c.component? x).isSome) : x ∉ s.members := by
  intro hmem
  rw [hs.fresh x (mem_append_right _ hmem)] at hx
  cases hx

include h

omit he hsplit in
/-- Nodes that had a component come from nodes that had one, so their components are
    entered where they were. -/
theorem mem_entryPoints_grow (x : Nat) : x ∈ (c.grow s).entryPoints ↔
    ∃ k, (c.grow s).component? x = some k ∧
      ∃ u ∈ g.livePredecessors x, (c.grow s).component? u ≠ some k := by
  have hentry : x ∈ (c.grow s).entryPoints ↔ x ∈ c.entryPoints ∨
      x ∈ s.members ∧ ∃ u ∈ g.livePredecessors x, (c.component? u).isSome := hs.entryPoints x
  rw [hentry, h.entryPoints]
  by_cases hx : x ∈ s.members
  · have hfresh := hs.fresh x (mem_append_right _ hx)
    have hmem : (c.grow s).component? x = some c.count :=
      (component?_grow hs htodo).mpr (.inl ⟨hx, rfl⟩)
    have hother : ∀ u ∈ g.livePredecessors x,
        ((c.component? u).isSome ↔ (c.grow s).component? u ≠ some c.count) := by
      intro u hu
      have hsome := (isSome_component?_grow hs htodo).mp (hs.closed x hx u hu)
      rw [Ne, component?_grow hs htodo]
      constructor
      · rintro hold (⟨hmem, _⟩ | hcount)
        · exact not_mem_members hs hold hmem
        · exact h.component?_ne_count u hcount
      · exact fun hnot => hsome.resolve_left fun hmem => hnot (.inl ⟨hmem, rfl⟩)
    simp only [hfresh, hmem, hx, true_and, reduceCtorEq, false_and, exists_false, false_or,
      Option.some.injEq, exists_eq_left']
    exact exists_congr fun u => and_congr_right (hother u)
  · have hsame : ∀ k, (c.grow s).component? x = some k ↔ c.component? x = some k := by
      simp [component?_grow hs htodo, hx]
    have hother : ∀ k, c.component? x = some k → ∀ u ∈ g.livePredecessors x,
        (c.component? u ≠ some k ↔ (c.grow s).component? u ≠ some k) := by
      intro k hk u hu
      have hmem := not_mem_members hs (h.closed x k hk u hu)
      simp [component?_grow hs htodo, hmem]
    simp only [hx, false_and, or_false, hsame]
    exact exists_congr fun k => and_congr_right fun hk =>
      exists_congr fun u => and_congr_right (hother k hk u)

omit hsplit htodo in
theorem not_reaches_of_mem {y k : Nat} (hx : x ∈ s.members) (hlive : g.Live x)
    (hy : c.component? y = some k) : ¬ g.Reaches x y := fun hxy =>
  not_mem_members hs (h.isSome_of_reaches he hlive hxy (by simp [hy])) hx

omit htodo in
theorem connected_of_mem (hx : x ∈ s.members) : g.Live x ∧ g.Reaches x root ∧ g.Reaches root x := by
  have hlive : g.Live root := by
    rw [← FlowGraph.mem_left_iff he, hsplit]
    simp
  have hconn := h.connected_root he hsplit (hs.way x (mem_append_right _ hx))
  exact ⟨hlive.trans hconn.2, hconn⟩

theorem connected_grow (u v j k : Nat) (hu : (c.grow s).component? u = some j)
    (hv : (c.grow s).component? v = some k) : j = k ↔ g.Reaches u v ∧ g.Reaches v u := by
  have hmem : ∀ x ∈ s.members, g.Live x ∧ g.Reaches x root ∧ g.Reaches root x := fun x =>
    connected_of_mem he hsplit h hs
  rcases (component?_grow hs htodo).mp hu with ⟨humem, rfl⟩ | huold <;>
    rcases (component?_grow hs htodo).mp hv with ⟨hvmem, rfl⟩ | hvold
  · exact iff_of_true rfl ⟨(hmem u humem).2.1.trans (hmem v hvmem).2.2,
      (hmem v hvmem).2.1.trans (hmem u humem).2.2⟩
  · exact iff_of_false (fun hjk => h.component?_ne_count v (hjk ▸ hvold)) fun huv =>
      not_reaches_of_mem he h hs humem (hmem u humem).1 hvold huv.1
  · exact iff_of_false (fun hjk => h.component?_ne_count u (hjk ▸ huold)) fun huv =>
      not_reaches_of_mem he h hs hvmem (hmem v hvmem).1 huold huv.2
  · exact h.connected u v j k huold hvold

theorem Found.grow : Found g (done ++ [root]) (c.grow s) := by
  have hcomp : ∀ x k, (c.grow s).component? x = some k ↔
      (x ∈ s.members ∧ k = c.count) ∨ c.component? x = some k := fun x k =>
    component?_grow hs htodo
  have hroot : root ∈ s.members := by simpa [htodo] using hs.root_mem
  refine ⟨fun v k => ?_, fun k => ?_, fun k hk => ?_, fun v hv => ?_, fun v k hv => ?_,
    fun v k hv u hu => ?_, connected_grow he hsplit h hs htodo, mem_entryPoints_grow h hs htodo⟩
  · rw [hcomp, members_grow]
    by_cases hk : k = c.count
    · simp [hk, h.component?_ne_count v]
    · simp [hk, h.labelled]
  · rw [members_grow]
    split
    · simpa [htodo] using hs.nodup
    · exact h.nodup k
  · rw [members_grow]
    split
    · exact ne_nil_of_mem hroot
    · next hne =>
      refine h.inhabited k ?_
      simp only [count, Components.grow, length_append, length_singleton] at hk hne ⊢
      omega
  · rw [isSome_component?_grow hs htodo]
    rcases mem_append.mp hv with hv | hv
    · exact .inr (h.done v hv)
    · exact .inl (mem_singleton.mp hv ▸ hroot)
  · rcases (hcomp v k).mp hv with ⟨hmem, _⟩ | hold
    · exact (connected_of_mem he hsplit h hs hmem).1
    · exact h.live v k hold
  · rcases (hcomp v k).mp hv with ⟨hmem, _⟩ | hold
    · exact hs.closed v hmem u hu
    · exact (isSome_component?_grow hs htodo).mpr (.inr (h.closed v k hold u hu))

end Growing

theorem Found.add (h : Found g done c) :
    Found g (done ++ [root]) (c.add g.livePredecessors g.size root) := by
  have hcontains : c.ofNode.contains root = (c.component? root).isSome :=
    Std.TreeMap.contains_eq_isSome_getElem?
  unfold Components.add
  rw [hcontains]
  split
  · next hroot =>
    refine { h with done := fun v hv => ?_ }
    rcases mem_append.mp hv with hv | hv
    · exact h.done v hv
    · exact mem_singleton.mp hv ▸ hroot
  · next hroot =>
    have hlt : root < g.size := FlowGraph.Live.lt_size he <| by
      rw [← FlowGraph.mem_left_iff he, hsplit]
      simp
    rcases h.collects (by simpa using hroot) hlt with ⟨hs, htodo⟩
    exact h.grow he hsplit hs htodo

end Adding

/-- The order in which the walk leaves nodes is what finds the components. -/
theorem found_components {g : FlowGraph} (he : ∀ e, g.entry = some e → e < g.size) :
    Found g g.walk.left g.components := by
  suffices hrun : ∀ rest done c, g.walk.left = done ++ rest → Found g done c →
      Found g (done ++ rest) (rest.foldl (add g.livePredecessors g.size) c) by
    refine hrun g.walk.left [] {} rfl ?_
    constructor <;> simp [component?, members, count]
  intro rest
  induction rest with
  | nil => exact fun done c _ h => by simpa using h
  | cons root rest ih =>
    intro done c hsplit h
    have hstep := ih (done ++ [root]) _ (by simpa using hsplit) (h.add he hsplit)
    simpa using hstep

end Components

theorem Scope.mem_foldl_writes {s : Scope} {x : String} : ∀ {cs : List Command} {acc : NameSet},
    x ∈ cs.foldl (fun acc c => acc.union (s.writes c)) acc ↔ x ∈ acc ∨ ∃ c ∈ cs, x ∈ s.writes c
  | [], acc => by simp
  | c :: cs, acc => by
    rw [foldl_cons, mem_foldl_writes, NameSet.mem_union, or_assoc]
    simp

theorem Scope.mem_writesAt_iff {s : Scope} {body : Body} {nodes : List Nat} {x : String} :
    x ∈ s.writesAt body nodes ↔ ∃ v ∈ nodes, ∃ c, body[v]? = some c ∧ x ∈ s.writes c := by
  unfold writesAt
  rw [mem_foldl_writes]
  simp only [mem_filterMap, getElem?_toArray, NameSet.not_mem_empty, false_or]
  constructor
  · rintro ⟨c, ⟨v, hv, hc⟩, hx⟩
    exact ⟨v, hv, c, hc, hx⟩
  · rintro ⟨v, hv, c, hc, hx⟩
    exact ⟨c, ⟨v, hv, hc⟩, hx⟩

namespace FlowGraph

section Exact

variable {g : FlowGraph} (he : ∀ e, g.entry = some e → e < g.size)
include he

variable {v : Nat}

theorem isSome_component?_iff : (g.components.component? v).isSome ↔ g.Live v := by
  have hfound := Components.found_components he
  constructor
  · intro h
    obtain ⟨k, hk⟩ := Option.isSome_iff_exists.mp h
    exact hfound.live v k hk
  · exact fun h => hfound.done v ((mem_left_iff he).mpr h)

theorem component?_eq_iff {u : Nat} (hu : g.Live u) (hv : g.Live v) :
    g.components.component? u = g.components.component? v ↔ g.Reaches u v ∧ g.Reaches v u := by
  obtain ⟨j, hj⟩ := Option.isSome_iff_exists.mp ((isSome_component?_iff he).mpr hu)
  obtain ⟨k, hk⟩ := Option.isSome_iff_exists.mp ((isSome_component?_iff he).mpr hv)
  rw [hj, hk, Option.some.injEq]
  exact (Components.found_components he).connected u v j k hj hk

omit he in
theorem eq_writesAt {body : Body} {s : Scope} {k : Nat} {writes : NameSet}
    (h : (g.analyseLoops body s).writes[k]? = some writes) :
    writes = s.writesAt body (g.components.members k) := by
  rcases List.getElem?_eq_some_iff.mp h with ⟨hk, rfl⟩
  simp [analyseLoops]

variable {body : Body} {s : Scope}

theorem mem_unreachable_iff :
    v ∈ (g.analyseLoops body s).unreachable ↔ v < g.size ∧ ¬ g.Live v := by
  have hmem : v ∈ (g.analyseLoops body s).unreachable ↔
      v < g.size ∧ (!(Std.TreeSet.ofList g.walk.left : Nodes).contains v) = true := by
    rw [← mem_range]
    exact mem_filter
  rw [hmem, Bool.not_eq_true', ← Bool.not_eq_true, Std.TreeSet.contains_iff_mem, mem_ofList,
    mem_left_iff he]

theorem mem_entryPoints_iff : v ∈ (g.analyseLoops body s).entryPoints ↔
    g.Live v ∧ ∃ u, g.Live u ∧ v ∈ g.successors u ∧
      g.components.component? u ≠ g.components.component? v := by
  have hmem : v ∈ (g.analyseLoops body s).entryPoints ↔
      v < g.size ∧ v ∈ g.components.entryPoints := by
    rw [← mem_range, ← Std.TreeSet.contains_iff_mem]
    exact mem_filter
  rw [hmem, (Components.found_components he).entryPoints]
  simp only [mem_livePredecessors he]
  constructor
  · rintro ⟨_, k, hk, u, ⟨hedge, hu⟩, hne⟩
    exact ⟨(Components.found_components he).live v k hk, u, hu, hedge, hk ▸ hne⟩
  · rintro ⟨hv, u, hu, hedge, hne⟩
    obtain ⟨k, hk⟩ := Option.isSome_iff_exists.mp ((isSome_component?_iff he).mpr hv)
    exact ⟨hv.lt_size he, k, hk, u, ⟨hedge, hu⟩, hk ▸ hne⟩

theorem size_eq_length (k : Nat) : (g.analyseLoops body s).size k =
    (g.nodes.filter (g.components.component? · = some k)).length := by
  have hfound := Components.found_components he
  refine Perm.length_eq ((perm_ext_iff_of_nodup (hfound.nodup k)
    (nodup_range.filter _)).mpr fun v => ?_)
  rw [← hfound.labelled, mem_filter, decide_eq_true_eq, mem_range]
  exact ⟨fun hv => ⟨(hfound.live v k hv).lt_size he, hv⟩, fun hv => hv.2⟩

end Exact

end FlowGraph

/-- The components of an analysis are the classes of nodes that reach each other, and
    what is said of each is so. -/
structure LoopAnalysis.Exact (a : LoopAnalysis) (g : FlowGraph) (body : Body) (s : Scope) :
    Prop where
  /-- Exactly the nodes that the entry reaches have a component. -/
  isSome_iff : ∀ v, (a.components.component? v).isSome ↔ g.Live v
  /-- The other nodes are listed. -/
  unreachable : ∀ v, v ∈ a.unreachable ↔ v < g.size ∧ ¬ g.Live v
  unreachable_sorted : a.unreachable.Pairwise (· < ·)
  /-- A component is a class of nodes that reach each other. -/
  eq_iff : ∀ u v, g.Live u → g.Live v →
    (a.components.component? u = a.components.component? v ↔ g.Reaches u v ∧ g.Reaches v u)
  /-- Components are numbered without gaps. -/
  lt_count_iff : ∀ k, k < a.components.count ↔ ∃ v, a.components.component? v = some k
  size_eq : ∀ k, a.size k = (g.nodes.filter (a.components.component? · = some k)).length
  length_writes : a.writes.length = a.components.count
  /-- A component writes what the commands at its nodes write. -/
  writes : ∀ k W, a.writes[k]? = some W → ∀ x, x ∈ W ↔
    ∃ v c, a.components.component? v = some k ∧ body[v]? = some c ∧ x ∈ s.writes c
  /-- A component is entered at the nodes that come after a node of another one. -/
  entryPoints : ∀ v, v ∈ a.entryPoints ↔ g.Live v ∧ ∃ u, g.Live u ∧ v ∈ g.successors u ∧
    a.components.component? u ≠ a.components.component? v
  entryPoints_sorted : a.entryPoints.Pairwise (· < ·)

/-- Loops are analysed on the strongly connected components of what the entry reaches. -/
theorem analyseLoops_exact (g : FlowGraph) (body : Body) (s : Scope)
    (he : ∀ e, g.entry = some e → e < g.size) : (g.analyseLoops body s).Exact g body s := by
  have hfound := Components.found_components he
  have hsorted : ∀ p : Nat → Bool, (g.nodes.filter p).Pairwise (· < ·) := fun p =>
    pairwise_lt_range.filter p
  refine
    { isSome_iff := fun v => FlowGraph.isSome_component?_iff he
      unreachable := fun v => FlowGraph.mem_unreachable_iff he
      unreachable_sorted := hsorted _
      eq_iff := fun u v => FlowGraph.component?_eq_iff he
      lt_count_iff := fun k => ?_
      size_eq := FlowGraph.size_eq_length he
      length_writes := by simp [FlowGraph.analyseLoops]
      writes := fun k W hW x => ?_
      entryPoints := fun v => FlowGraph.mem_entryPoints_iff he
      entryPoints_sorted := hsorted _ }
  · constructor
    · intro hk
      obtain ⟨v, hv⟩ := exists_mem_of_ne_nil _ (hfound.inhabited k hk)
      exact ⟨v, (hfound.labelled v k).mpr hv⟩
    · rintro ⟨v, hv⟩
      exact Components.lt_count_of_mem ((hfound.labelled v k).mp hv)
  · rw [FlowGraph.eq_writesAt hW, Scope.mem_writesAt_iff]
    simp only [← hfound.labelled]
    constructor
    · rintro ⟨v, hv, c, hc⟩
      exact ⟨v, c, hv, hc⟩
    · rintro ⟨v, c, hv, hc⟩
      exact ⟨v, hv, c, hc⟩

/-- Two loops, the second entered from the first and from the start, and a circle that
    cannot be entered. -/
def twoLoops : FlowGraph :=
  .ofEdges 7 (some 0)
    [(0, 1), (1, 2), (2, 1), (2, 4), (0, 3), (3, 4), (4, 3), (5, 6), (6, 5), (6, 1)]

/-- The first loop writes one name and the second another. -/
def twoLoopsBody : Body :=
  [{ action := .havoc [] }, { action := .havoc ["x"] }, { action := .havoc [] },
    { action := .havoc ["y"] }]

theorem analyseLoops_exact_twoLoops : (∀ e, twoLoops.entry = some e → e < twoLoops.size) ∧
    (twoLoops.analyseLoops twoLoopsBody {}).writes.map (·.toList) = [[], ["x"], ["y"]] ∧
    (twoLoops.analyseLoops twoLoopsBody {}).entryPoints = [1, 3, 4] ∧
    (twoLoops.analyseLoops twoLoopsBody {}).unreachable = [5, 6] ∧
    (twoLoops.analyseLoops twoLoopsBody {}).Exact twoLoops twoLoopsBody {} := by
  have he : ∀ e, twoLoops.entry = some e → e < twoLoops.size := by
    intro e h
    obtain rfl : 0 = e := Option.some.inj h
    decide
  exact ⟨he, by decide, by decide, by decide, analyseLoops_exact twoLoops twoLoopsBody {} he⟩

end Vouch
