import Mathlib.Data.Finset.Card
import Mathlib.Data.Set.Subsingleton
import Vouch.Proofs.Term.Meaning
import Vouch.Proofs.Term.Stock
import Vouch.Term.Unshare

/-!
# Edges of Terms

A node is shared if more than one edge leads to it. The edges are places: each root is
one, and so is each operand of a node that is reached without going below a quantifier.
Said this way, being shared does not depend on any order in which a graph is walked.

## Main definitions

* `Term.Outside`: A node is reached without going below a quantifier.
* `Term.edgesTo`: The edges that lead to a node.
* `Term.Counted`: Which nodes a walk entered.

## Theorems

* `Term.two_le_parentEdges`: A count of two or more is two different edges.
-/

namespace Vouch

open List

namespace Term

/-- The node is reached from a root without going below a quantifier. -/
inductive Outside (roots : List Term) : Term → Prop
  | root {t : Term} : t ∈ roots → Outside roots t
  | operand {p t : Term} : Outside roots p → p.op ≠ .all → t ∈ p.children → Outside roots t

/-- A place at which a node can be. -/
inductive Edge where
  | root (index : Nat)
  | operand (parent : Term) (index : Nat)

/-- The node at the place. -/
def Edge.target? (roots : List Term) : Edge → Option Term
  | root i => roots[i]?
  | operand p i => p.children[i]?

/-- The place is a root, or an operand of a node outside quantifiers. -/
def Edge.Present (roots : List Term) : Edge → Prop
  | root _ => True
  | operand p _ => Outside roots p ∧ p.op ≠ .all

/-- The edges that lead to the node. -/
def edgesTo (roots : List Term) (t : Term) : Set Edge :=
  {e | e.Present roots ∧ e.target? roots = some t}

variable {roots : List Term} {W : Stock} {t : Term}

theorem Outside.mem (hroots : ∀ t ∈ roots, t ∈ W.terms) (h : Outside roots t) : t ∈ W.terms := by
  induction h with
  | root ht => exact hroots _ ht
  | operand _ _ hc ih => exact W.closed _ ih _ hc

theorem outside_of_mem_edgesTo {e : Edge} (h : e ∈ edgesTo roots t) : Outside roots t := by
  cases e with
  | root i => exact .root (mem_of_getElem? h.2)
  | operand p i => exact .operand h.1.1 h.1.2 (mem_of_getElem? h.2)

/-- The operands that a walk goes on to. -/
def entered (t : Term) : List Term :=
  if t.op = .all then [] else t.children

theorem entered_of_op_ne (h : t.op ≠ .all) : t.entered = t.children :=
  if_neg h

theorem mem_entered {c : Term} : c ∈ t.entered ↔ t.op ≠ .all ∧ c ∈ t.children := by
  unfold entered
  by_cases h : t.op = .all
  · simp [h]
  · simp [h]

/-! ### What the walk counts -/

/-- The walk to the targets `ts` entered the nodes `vs`. -/
structure Counted (roots ts vs : List Term) (c c' : EdgeCount) : Prop where
  counts : ∀ id, c'.counts.getD id 0 =
    c.counts.getD id 0 + ((ts ++ vs.flatMap entered).map ident).count id
  visited : ∀ id, id ∈ c'.visited ↔ id ∈ c.visited ∨ id ∈ vs.map ident
  new : ∀ v ∈ vs, v.ident ∉ c.visited
  nodup : (vs.map ident).Nodup
  outside : ∀ v ∈ vs, Outside roots v
  closed : ∀ v ∈ vs, ∀ u ∈ v.entered, u.ident ∈ c'.visited

variable {ts us vs ws : List Term} {c c' c'' : EdgeCount}

theorem Counted.refl (roots : List Term) (c : EdgeCount) : Counted roots [] [] c c where
  counts := by simp
  visited := by simp
  new := by simp
  nodup := by simp
  outside := by simp
  closed := by simp

theorem Counted.trans (h : Counted roots ts vs c c') (h' : Counted roots us ws c' c'') :
    Counted roots (ts ++ us) (vs ++ ws) c c'' where
  counts id := by
    have hfirst := h.counts id
    have hsecond := h'.counts id
    simp only [flatMap_append, map_append, count_append] at hfirst hsecond ⊢
    omega
  visited id := by
    rw [h'.visited, h.visited, map_append, mem_append, or_assoc]
  new v hv := by
    rcases mem_append.mp hv with hv | hv
    · exact h.new v hv
    · exact fun hold => h'.new v hv ((h.visited _).mpr (.inl hold))
  nodup := by
    rw [map_append, nodup_append']
    refine ⟨h.nodup, h'.nodup, fun id hid hid' => ?_⟩
    rcases mem_map.mp hid' with ⟨w, hw, rfl⟩
    exact h'.new w hw ((h.visited _).mpr (.inr hid))
  outside v hv := (mem_append.mp hv).elim (h.outside v) (h'.outside v)
  closed v hv u hu := by
    rcases mem_append.mp hv with hv | hv
    · exact (h'.visited _).mpr (.inl (h.closed v hv u hu))
    · exact h'.closed v hv u hu

theorem counted_reach (roots : List Term) (t : Term) (c : EdgeCount) :
    Counted roots [t] [] c (c.reach t) where
  counts id := by
    unfold EdgeCount.reach
    rw [Std.TreeMap.getD_insert]
    by_cases hid : t.ident = id
    · simp [hid]
    · have hcmp : compare t.ident id ≠ .eq := fun h => hid (Std.compare_eq_iff_eq.mp h)
      simp [hcmp, hid]
  visited := by simp [EdgeCount.reach]
  new := by simp
  nodup := by simp
  outside := by simp
  closed := by simp

theorem countBelow_eq (t : Term) (c : EdgeCount) :
    countBelow t c = if c.visited.contains t.ident then c
      else countEdges t.entered { c with visited := c.visited.insert t.ident } := by
  obtain ⟨id, h, cs, as⟩ := t
  rw [countBelow]
  by_cases hop : h.op = .all
  · have hentered : (node id h cs as).entered = [] := if_pos hop
    rw [hentered, countEdges]
    simp only [hop, if_true]
    rfl
  · have hentered : (node id h cs as).entered = cs := if_neg hop
    rw [hentered]
    simp only [hop, if_false]
    rfl

/-- Counting below the node enters it unless that was done before. -/
def CountsBelow (roots : List Term) (t : Term) : Prop :=
  ∀ c, Outside roots t → ∃ vs, Counted roots [] vs c (countBelow t c) ∧
    t.ident ∈ (countBelow t c).visited

theorem exists_counted_of_below (h : ∀ t ∈ ts, CountsBelow roots t) :
    ∀ c, (∀ t ∈ ts, Outside roots t) → ∃ vs, Counted roots ts vs c (countEdges ts c) ∧
      ∀ t ∈ ts, t.ident ∈ (countEdges ts c).visited := by
  induction ts with
  | nil =>
    intro c _
    rw [countEdges]
    exact ⟨[], .refl roots c, by simp⟩
  | cons t ts ih =>
    intro c hout
    rw [countEdges]
    rcases h t (by simp) (c.reach t) (hout t (by simp)) with ⟨vs, hbelow, hself⟩
    rcases ih (fun u hu => h u (by simp [hu])) (countBelow t (c.reach t))
      (fun u hu => hout u (by simp [hu])) with ⟨ws, hrest, hdone⟩
    refine ⟨vs ++ ws, ((counted_reach roots t c).trans hbelow).trans hrest, fun u hu => ?_⟩
    rcases mem_cons.mp hu with rfl | hu
    · exact (hrest.visited _).mpr (.inl hself)
    · exact hdone u hu

theorem Counted.enter (ht : Outside roots t) (hnew : t.ident ∉ c.visited)
    (h : Counted roots t.entered vs { c with visited := c.visited.insert t.ident } c')
    (hdone : ∀ u ∈ t.entered, u.ident ∈ c'.visited) : Counted roots [] (t :: vs) c c' where
  counts id := by
    have hcounts := h.counts id
    simpa using hcounts
  visited id := by
    rw [h.visited, Std.TreeSet.mem_insert, Std.compare_eq_iff_eq, map_cons, mem_cons,
      or_assoc, or_left_comm, eq_comm]
  new v hv := by
    rcases mem_cons.mp hv with rfl | hv
    · exact hnew
    · exact fun hold => h.new v hv (Std.TreeSet.mem_insert.mpr (.inr hold))
  nodup := by
    rw [map_cons, nodup_cons]
    refine ⟨fun hmem => ?_, h.nodup⟩
    rcases mem_map.mp hmem with ⟨v, hv, hid⟩
    exact h.new v hv (Std.TreeSet.mem_insert.mpr (.inl (Std.compare_eq_iff_eq.mpr hid.symm)))
  outside v hv := by
    rcases mem_cons.mp hv with rfl | hv
    · exact ht
    · exact h.outside v hv
  closed v hv := by
    rcases mem_cons.mp hv with rfl | hv
    · exact hdone
    · exact h.closed v hv

theorem countsBelow (roots : List Term) (t : Term) : CountsBelow roots t := by
  induction t using Term.induction with
  | step t ih =>
    intro c ht
    rw [countBelow_eq]
    by_cases hold : c.visited.contains t.ident = true
    · rw [if_pos hold]
      exact ⟨[], .refl roots c, Std.TreeSet.contains_iff_mem.mp hold⟩
    · rw [if_neg hold]
      have hnew : t.ident ∉ c.visited := fun h => hold (Std.TreeSet.contains_iff_mem.mpr h)
      rcases exists_counted_of_below (fun u hu => ih u (mem_entered.mp hu).2) _
        (fun u hu => .operand ht (mem_entered.mp hu).1 (mem_entered.mp hu).2)
        with ⟨vs, hcounted, hdone⟩
      refine ⟨t :: vs, hcounted.enter ht hnew hdone, (hcounted.visited _).mpr (.inl ?_)⟩
      exact Std.TreeSet.mem_insert.mpr (.inl (Std.compare_eq_iff_eq.mpr rfl))

theorem exists_counted (hroots : ∀ t ∈ roots, t ∈ W.terms) :
    ∃ vs : List Term, vs.Nodup ∧ (∀ t, t ∈ vs ↔ Outside roots t) ∧
      ∀ id, (parentEdges roots).getD id 0 =
        ((roots ++ vs.flatMap entered).map ident).count id := by
  rcases exists_counted_of_below (fun t _ => countsBelow roots t) {} (fun t ht => .root ht)
    with ⟨vs, h, hdone⟩
  -- If the identity of a node was visited, the node was, since no other node has it.
  have hvisited : ∀ t, Outside roots t → t.ident ∈ (countEdges roots {}).visited → t ∈ vs := by
    intro t ht hid
    rcases (h.visited _).mp hid with hid | hid
    · simp at hid
    · rcases mem_map.mp hid with ⟨v, hv, hvt⟩
      rwa [← W.identified v ((h.outside v hv).mem hroots) t (ht.mem hroots) hvt]
  refine ⟨vs, h.nodup.of_map _, fun t => ⟨h.outside t, fun ht => ?_⟩, fun id => ?_⟩
  · induction ht with
    | root ht => exact hvisited _ (.root ht) (hdone _ ht)
    | operand hp hop hc ih =>
      exact hvisited _ (.operand hp hop hc) (h.closed _ ih _ (mem_entered.mpr ⟨hop, hc⟩))
  · have hcounts := h.counts id
    simpa [parentEdges] using hcounts

/-! ### Counts and places -/

/-- The edges to roots and the edges from some nodes. -/
def edgeList (roots vs : List Term) : List Edge :=
  (List.range roots.length).map .root ++
    vs.flatMap fun p => (List.range p.entered.length).map (.operand p)

theorem nodup_edgeList (roots : List Term) {vs : List Term} (h : vs.Nodup) :
    (edgeList roots vs).Nodup := by
  unfold edgeList
  rw [nodup_append', nodup_flatMap]
  refine ⟨nodup_range.map fun i j hij => by simpa using hij,
    ⟨fun p _ => nodup_range.map fun i j hij => by simpa using hij, ?_⟩, ?_⟩
  · refine h.imp fun {p q} hpq e hp hq => hpq ?_
    rcases mem_map.mp hp with ⟨i, _, rfl⟩
    rcases mem_map.mp hq with ⟨j, _, heq⟩
    rw [Edge.operand.injEq] at heq
    exact heq.1.symm
  · intro e he he'
    rcases mem_map.mp he with ⟨i, _, rfl⟩
    rcases mem_flatMap.mp he' with ⟨p, _, hp⟩
    simp at hp

theorem map_getElem?_range {α : Type} (l : List α) :
    ((List.range l.length).map fun i => l[i]?) = l.map some := by
  apply ext_getElem
  · simp
  · intro i hi hi'
    have hlt : i < l.length := by simpa using hi
    simp [hlt]

theorem map_target?_edgeList (roots vs : List Term) :
    (edgeList roots vs).map (·.target? roots) = (roots ++ vs.flatMap entered).map some := by
  unfold edgeList
  rw [map_append, map_append, map_map, map_flatMap, map_flatMap,
    ← map_getElem?_range roots]
  congr 1
  refine flatMap_congr fun p _ => ?_
  rw [map_map, ← map_getElem?_range]
  refine map_congr_left fun i hi => ?_
  have hop : p.op ≠ .all := by
    intro hop
    simp [entered, hop] at hi
  rw [entered_of_op_ne hop]
  rfl

theorem mem_edgesTo_iff {vs : List Term} (hvs : ∀ t, t ∈ vs ↔ Outside roots t) {e : Edge} :
    e ∈ edgesTo roots t ↔ e ∈ edgeList roots vs ∧ e.target? roots = some t := by
  refine and_congr_left fun htarget => ?_
  unfold edgeList
  rw [mem_append, mem_map, mem_flatMap]
  cases e with
  | root i =>
    have hlt : i < roots.length := (List.getElem?_eq_some_iff.mp htarget).1
    simp [Edge.Present, hlt]
  | operand p i =>
    have hlt : i < p.children.length := (List.getElem?_eq_some_iff.mp htarget).1
    have hmem : i < p.entered.length ↔ p.op ≠ .all := by
      constructor
      · intro hi hop
        simp [entered, hop] at hi
      · intro hop
        rwa [entered_of_op_ne hop]
    simp [Edge.Present, hvs, hmem]

theorem two_le_count_map {α β : Type} [BEq β] [LawfulBEq β] {f : α → β} {b : β} {l : List α}
    (h : l.Nodup) :
    2 ≤ (l.map f).count b ↔ ∃ x, (x ∈ l ∧ f x = b) ∧ ∃ y, (y ∈ l ∧ f y = b) ∧ x ≠ y := by
  classical
  have hcard : (l.map f).count b = (l.filter (f · == b)).toFinset.card := by
    rw [toFinset_card_of_nodup (h.filter _), List.count, countP_map,
      countP_eq_length_filter]
    rfl
  rw [hcard, ← Nat.lt_iff_add_one_le, Finset.one_lt_card]
  simp only [mem_toFinset, mem_filter, beq_iff_eq]

/-- What is counted are edges, so two are counted if two are different. -/
theorem two_le_parentEdges (hroots : ∀ t ∈ roots, t ∈ W.terms) (ht : t ∈ W.terms) :
    2 ≤ (parentEdges roots).getD t.ident 0 ↔ ¬ (edgesTo roots t).Subsingleton := by
  rcases exists_counted hroots with ⟨vs, hnodup, hvs, hcounts⟩
  -- The identities that were counted are those at the places.
  have hplaces : (edgeList roots vs).map (fun e => (e.target? roots).map ident) =
      ((roots ++ vs.flatMap entered).map ident).map some := by
    have htargets := congrArg (List.map (Option.map ident)) (map_target?_edgeList roots vs)
    simpa [Function.comp_def] using htargets
  have hcount : (parentEdges roots).getD t.ident 0 =
      ((edgeList roots vs).map fun e => (e.target? roots).map ident).count (some t.ident) := by
    rw [hplaces, count_map_of_injective _ _ fun _ _ h => Option.some.inj h, hcounts]
  have hedge : ∀ e, e ∈ edgeList roots vs ∧ (e.target? roots).map ident = some t.ident ↔
      e ∈ edgesTo roots t := by
    intro e
    rw [mem_edgesTo_iff hvs]
    refine and_congr_right fun he => ⟨fun hid => ?_, fun htarget => by rw [htarget]; rfl⟩
    rcases Option.map_eq_some_iff.mp hid with ⟨u, hu, hut⟩
    have hout := outside_of_mem_edgesTo ((mem_edgesTo_iff hvs).mpr ⟨he, hu⟩)
    rwa [← W.identified u (hout.mem hroots) t ht hut]
  rw [hcount, two_le_count_map (nodup_edgeList roots hnodup), Set.not_subsingleton_iff]
  simp only [hedge]
  rfl

end Term

end Vouch
