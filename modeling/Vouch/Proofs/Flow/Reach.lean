import Mathlib.Data.Finset.Card
import Mathlib.Data.Finset.Range
import Mathlib.Logic.Relation
import Vouch.Flow.Reach
import Vouch.Proofs.Flow.Order

/-!
# Searches Are Exhaustive

The measure of a search is what it has still to look at plus what it has not found:
a step looks at one node, and each node that it finds moves from the second part
to the first. A search may be started with nodes found that it is not to look at.
Natural loops are found this way, so the statement allows for exceptions.

## Main definitions

* `unfound`: The nodes that a search has not found.
* `FlowGraph.Reaches`: There is a path from a node to another.

## Theorems

* `closed_explore`: What a search has looked at is closed under steps.
* `sound_explore`: It finds nothing else.
-/

namespace Vouch

open List

/-- The nodes that a search has not found. -/
def unfound (n : Nat) (found : Nodes) : Finset Nat :=
  (Finset.range n).filter (· ∉ found)

theorem mem_insertMany {found : Nodes} {new : List Nat} {x : Nat} :
    x ∈ found.insertMany new ↔ x ∈ found ∨ x ∈ new := by
  rw [Std.TreeSet.mem_insertMany_list, contains_iff_mem]

theorem card_unfound_insertMany {n : Nat} {found : Nodes} {new : List Nat} (hnodup : new.Nodup)
    (hnew : ∀ w ∈ new, w < n ∧ w ∉ found) :
    (unfound n (found.insertMany new)).card + new.length = (unfound n found).card := by
  have hsub : new.toFinset ⊆ unfound n found := by
    intro w hw
    rw [unfound, Finset.mem_filter, Finset.mem_range]
    exact hnew w (mem_toFinset.mp hw)
  have hdiff : unfound n (found.insertMany new) = unfound n found \ new.toFinset := by
    ext w
    simp only [unfound, Finset.mem_filter, Finset.mem_sdiff, mem_toFinset, mem_insertMany,
      not_or, and_assoc]
  rw [hdiff, ← toFinset_card_of_nodup hnodup]
  exact Finset.card_sdiff_add_card_eq_card hsub

theorem mem_ofList {l : List Nat} {x : Nat} : x ∈ (Std.TreeSet.ofList l : Nodes) ↔ x ∈ l := by
  rw [Std.TreeSet.mem_ofList, contains_iff_mem]

theorem card_unfound_ofList {n : Nat} {l : List Nat} (hnodup : l.Nodup) (hlt : ∀ w ∈ l, w < n) :
    (unfound n (.ofList l)).card + l.length = n := by
  have hsub : l.toFinset ⊆ Finset.range n := by
    intro w hw
    exact Finset.mem_range.mpr (hlt w (mem_toFinset.mp hw))
  have hdiff : unfound n (.ofList l) = Finset.range n \ l.toFinset := by
    ext w
    simp only [unfound, Finset.mem_filter, Finset.mem_sdiff, mem_toFinset, mem_ofList]
  have hcard := Finset.card_sdiff_add_card_eq_card hsub
  rw [Finset.card_range, toFinset_card_of_nodup hnodup] at hcard
  rw [hdiff, hcard]

section Explore

variable {next : Nat → List Nat}

theorem mem_explore : ∀ {fuel : Nat} {todo : List Nat} {found : Nodes} {x : Nat}, x ∈ found →
    x ∈ explore next fuel todo found
  | 0, _, _, _, h => by
    rw [explore]
    exact h
  | _ + 1, [], _, _, h => by
    rw [explore]
    exact h
  | fuel + 1, v :: todo, found, x, h => by
    rw [explore]
    exact mem_explore (mem_insertMany.mpr (.inl h))

/-- What a search finds is closed under steps, except from nodes that were found
    from the start without being looked at. -/
theorem closed_explore {n : Nat} {stop : Nat → Prop} (hlt : ∀ v, ∀ w ∈ next v, w < n)
    (hnext : ∀ v, (next v).Nodup) : ∀ {fuel : Nat} {todo : List Nat} {found : Nodes},
    (∀ v ∈ found, v ∉ todo → stop v ∨ ∀ w ∈ next v, w ∈ found) →
    todo.length + (unfound n found).card ≤ fuel →
    ∀ v ∈ explore next fuel todo found, stop v ∨ ∀ w ∈ next v, w ∈ explore next fuel todo found
  | 0, todo, found, hclosed, hfuel => by
    -- Without fuel there is nothing left to look at.
    have hnil : todo = [] := eq_nil_of_length_eq_zero (by omega)
    rw [explore]
    exact fun v hv => hclosed v hv (by simp [hnil])
  | _ + 1, [], found, hclosed, _ => by
    rw [explore]
    exact fun v hv => hclosed v hv (by simp)
  | fuel + 1, v :: todo, found, hclosed, hfuel => by
    rw [explore]
    -- The nodes that are new come from the second part of the measure to the first.
    set new := (next v).filter fun w => !found.contains w with hdef
    have hnew : ∀ w, w ∈ new ↔ w ∈ next v ∧ w ∉ found := by
      simp [hdef, ← Std.TreeSet.contains_iff_mem]
    have hnodup : new.Nodup := (hnext v).filter _
    have hcard : (unfound n (found.insertMany new)).card + new.length = (unfound n found).card :=
      card_unfound_insertMany hnodup fun w hw =>
        ⟨hlt v w ((hnew w).mp hw).1, ((hnew w).mp hw).2⟩
    refine closed_explore hlt hnext (fun x hx hnot => ?_) ?_
    · rw [mem_append, not_or] at hnot
      have hx : x ∈ found := (mem_insertMany.mp hx).resolve_right hnot.1
      by_cases hxv : x = v
      · -- The node looked at has all its steps found now.
        refine .inr fun w hw => mem_insertMany.mpr ?_
        by_cases hf : w ∈ found
        · exact .inl hf
        · exact .inr ((hnew w).mpr ⟨hxv ▸ hw, hf⟩)
      · -- The others had theirs found before.
        refine (hclosed x hx (by simp [hxv, hnot.2])).imp_right fun h w hw => ?_
        exact mem_insertMany.mpr (.inl (h w hw))
    · rw [length_append]
      rw [length_cons] at hfuel
      omega

/-- The induction is on the fuel; what a search must not look at is an exception. -/
theorem sound_explore {P stop : Nat → Prop}
    (hstep : ∀ v, P v → ∀ w ∈ next v, stop w ∨ P w) : ∀ {fuel : Nat} {todo : List Nat}
    {found : Nodes}, (∀ v, stop v → v ∈ found) → (∀ v ∈ todo, P v) →
      (∀ v ∈ found, stop v ∨ P v) → ∀ v ∈ explore next fuel todo found, stop v ∨ P v
  | 0, _, _, _, _, hfound => by
    rw [explore]
    exact hfound
  | _ + 1, [], _, _, _, hfound => by
    rw [explore]
    exact hfound
  | fuel + 1, v :: todo, found, hstop, htodo, hfound => by
    rw [explore]
    have hnew : ∀ w ∈ (next v).filter fun w => !found.contains w, P w := by
      intro w hw
      rcases mem_filter.mp hw with ⟨hw, hnot⟩
      refine (hstep v (htodo v (by simp)) w hw).resolve_left fun hs => ?_
      simp [Std.TreeSet.contains_iff_mem.mpr (hstop w hs)] at hnot
    refine sound_explore hstep (fun w hw => ?_) (fun w hw => ?_) fun w hw => ?_
    · exact mem_insertMany.mpr (.inl (hstop w hw))
    · rcases mem_append.mp hw with hw | hw
      · exact hnew w hw
      · exact htodo w (by simp [hw])
    · rcases mem_insertMany.mp hw with hw | hw
      · exact hfound w hw
      · exact .inr (hnew w hw)

end Explore

namespace FlowGraph

variable {g : FlowGraph}

/-- There is a path from the first node to the second. -/
def Reaches (g : FlowGraph) : Nat → Nat → Prop :=
  Relation.ReflTransGen fun u v => v ∈ g.successors u

theorem Reaches.lt_size {u v : Nat} (h : g.Reaches u v) (hu : u < g.size) : v < g.size := by
  induction h with
  | refl => exact hu
  | tail _ hv _ => exact lt_size_of_mem_successors hv

end FlowGraph

end Vouch
