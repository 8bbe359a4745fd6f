import Vouch.Proofs.Term.Visits

/-!
# Rebuilding With a Stack

Rebuilding also goes without recursion, if the nodes that wait are on a stack. A node is
taken from it twice: the first time it is put back, with its operands above it, and the
second time, when they are known, it is visited.

## Main definitions

* `Term.unwind`: Works off a stack.
* `Term.rebuildStacked`: Rebuilding terms with a stack for each.

## Theorems

* `Term.Tours.run_unwindAll`: Working off operands is a tour over them.
* `Term.Tours.run_unwind`: Working off a node is a tour from it.
* `rebuildStacked_eq`: The loop is the recursion.
-/

namespace Vouch

open List

namespace Term

/-- How much is left to do for the nodes on a stack. The flag of a node says whether its
    operands were put above it. -/
noncomputable def load : List (Term × Bool) → Nat
  | [] => 0
  | (_, true) :: stack => 1 + load stack
  | (t, false) :: stack => 2 * sizeOf t + load stack

theorem load_append (above stack : List (Term × Bool)) :
    load (above ++ stack) = load above + load stack := by
  induction above with
  | nil => simp [load]
  | cons top above ih =>
    obtain ⟨t, expanded⟩ := top
    cases expanded <;> simp only [cons_append, load, ih] <;> omega

theorem load_operands_le (p : Term → Bool) (ts : List Term) :
    load ((ts.filter p).map (·, false)) ≤ 2 * sizeOf ts := by
  induction ts with
  | nil => simp [load]
  | cons t ts ih =>
    rw [filter_cons]
    split
    · simp only [map_cons, load, List.cons.sizeOf_spec]
      omega
    · simp only [List.cons.sizeOf_spec]
      omega

theorem sizeOf_children_lt (t : Term) : sizeOf t.children < sizeOf t := by
  obtain ⟨id, h, cs, as⟩ := t
  simp only [children, node.sizeOf_spec]
  omega

theorem load_lt_cons (top : Term × Bool) (stack : List (Term × Bool)) :
    load stack < load (top :: stack) := by
  obtain ⟨t, expanded⟩ := top
  have hlt := sizeOf_children_lt t
  cases expanded <;> rw [load] <;> omega

section Loop

variable {σ : Type} (descend : Term → Bool) (visit : Term → List Term → StateM σ Term)

/-- Take nodes from the stack until it is empty. -/
def unwind : List (Term × Bool) → NodeMap Term → StateM σ (NodeMap Term)
  | [], memo => return memo
  | (t, expanded) :: stack, memo =>
    if t.ident ∈ memo then
      unwind stack memo
    else if expanded then do
      let result ← visit t (t.children.map (resultIn memo))
      unwind stack (memo.insert t.ident result)
    else if t.children.isEmpty || !descend t then do
      let result ← visit t t.children
      unwind stack (memo.insert t.ident result)
    else
      unwind ((t.children.filter (·.ident ∉ memo)).map (·, false) ++ (t, true) :: stack) memo
termination_by stack => load stack
decreasing_by
  · exact load_lt_cons _ stack
  · exact load_lt_cons _ stack
  · exact load_lt_cons _ stack
  · -- The node stays, but its operands are smaller, and it is not expanded again.
    have hoperands := load_operands_le (·.ident ∉ memo) t.children
    have hlt := sizeOf_children_lt t
    rw [load_append, Bool.eq_false_iff.mpr ‹¬ expanded = true›, load, load]
    omega

/-- Rebuild several terms with a stack for each. -/
def rebuildStacked (roots : List Term) : StateM σ (List Term) := do
  let memo ← roots.foldlM (fun memo root => unwind descend visit [(root, false)] memo) ∅
  return roots.map (resultIn memo)

end Loop

variable {σ : Type} {descend : Term → Bool} {visit : Term → List Term → StateM σ Term} {W : Stock}
  {t : Term} {ts : List Term} {stack : List (Term × Bool)} {memo memo' : NodeMap Term} {s s' : σ}

theorem unwind_of_mem {expanded : Bool} (h : t.ident ∈ memo) :
    unwind descend visit ((t, expanded) :: stack) memo = unwind descend visit stack memo := by
  rw [unwind, if_pos h]

theorem run_unwind_expanded (h : t.ident ∉ memo) (hd : descend t = true)
    (hvisit : (visitNext descend visit memo t).run s = (memo', s')) :
    (unwind descend visit ((t, true) :: stack) memo).run s =
      (unwind descend visit stack memo').run s' := by
  rw [run_visitNext, if_pos hd] at hvisit
  rw [unwind, if_neg h, if_pos rfl, StateT.run_bind]
  cases hvisit
  rfl

theorem run_unwind_leaf (h : t.ident ∉ memo) (hleaf : t.followed descend = [])
    (hvisit : (visitNext descend visit memo t).run s = (memo', s')) :
    (unwind descend visit ((t, false) :: stack) memo).run s =
      (unwind descend visit stack memo').run s' := by
  have hstop : (t.children.isEmpty || !descend t) = true ∧
      (if descend t then t.children.map (resultIn memo) else t.children) = t.children := by
    unfold followed at hleaf
    by_cases hd : descend t = true
    · rw [if_pos hd] at hleaf
      simp [hleaf]
    · simp [hd]
  rw [run_visitNext, hstop.2] at hvisit
  rw [unwind, if_neg h, if_neg Bool.false_ne_true, if_pos hstop.1, StateT.run_bind]
  cases hvisit
  rfl

theorem unwind_of_followed (h : t.ident ∉ memo) (hne : t.children ≠ []) (hd : descend t = true) :
    unwind descend visit ((t, false) :: stack) memo =
      unwind descend visit
        ((t.children.filter (·.ident ∉ memo)).map (·, false) ++ (t, true) :: stack) memo := by
  rw [unwind, if_neg h, if_neg Bool.false_ne_true, if_neg (by simp [hne, hd])]

namespace Tours

/-- Working off operands, without those that were known when they were put on the stack, is
    a tour over them. -/
theorem run_unwindAll {known : NodeMap Term} (ih : ∀ t ∈ ts, ∀ {stack memo s memo' s'},
      Tours descend visit W [t] memo s memo' s' →
      (unwind descend visit ((t, false) :: stack) memo).run s =
        (unwind descend visit stack memo').run s') :
    ∀ {memo s}, Tours descend visit W ts memo s memo' s' → (∀ i ∈ known, i ∈ memo) →
      (unwind descend visit ((ts.filter (·.ident ∉ known)).map (·, false) ++ stack) memo).run s =
        (unwind descend visit stack memo').run s' := by
  induction ts with
  | nil =>
    intro memo s h _
    rcases h.nil with ⟨rfl, rfl⟩
    rfl
  | cons t ts ihs =>
    intro memo s h hknown
    rcases h.split with ⟨memo₁, s₁, hfirst, hrest, _⟩
    have hrest := ihs (forall_mem_cons.mp ih).2 hrest
    by_cases ht : t.ident ∈ known
    · rcases hfirst.known (hknown _ ht) with ⟨rfl, rfl⟩
      rw [filter_cons_of_neg (by simpa using ht)]
      exact hrest hknown
    · rw [filter_cons_of_pos (by simpa using ht), map_cons, cons_append,
        ih t mem_cons_self hfirst]
      exact hrest fun i hi => (hfirst.mem_iff i).mpr (.inl (hknown i hi))

/-- Working off a node is a tour from it, whatever else is on the stack. -/
theorem run_unwind (t : Term) : ∀ {stack memo s memo' s'},
    Tours descend visit W [t] memo s memo' s' →
    (unwind descend visit ((t, false) :: stack) memo).run s =
      (unwind descend visit stack memo').run s' := by
  induction t using Term.induction with
  | step t ih =>
    intro stack memo s memo' s' h
    by_cases ht : t.ident ∈ memo
    · rcases h.known ht with ⟨rfl, rfl⟩
      rw [unwind_of_mem ht]
    · rcases h.new ht with ⟨memo₁, s₁, hbelow, ht₁, hvisit⟩
      by_cases hleaf : t.followed descend = []
      · rw [hleaf] at hbelow
        rcases hbelow.nil with ⟨rfl, rfl⟩
        exact run_unwind_leaf ht hleaf hvisit
      · have hd : descend t = true := by
          by_contra hd
          exact hleaf (if_neg hd)
        rw [followed, if_pos hd] at hbelow hleaf
        -- The operands are worked off first, and then the node turns up again.
        rw [unwind_of_followed ht hleaf hd, run_unwindAll ih hbelow fun _ hi => hi]
        exact run_unwind_expanded ht₁ hd hvisit

theorem run_unwindRoots : ∀ {ts : List Term} {memo s}, Tours descend visit W ts memo s memo' s' →
    (ts.foldlM (fun memo root => unwind descend visit [(root, false)] memo) memo).run s =
      (memo', s')
  | [], _, _, h => by
    rcases h.nil with ⟨rfl, rfl⟩
    rfl
  | t :: ts, _, _, h => by
    rcases h.split with ⟨memo₁, s₁, hfirst, hrest, _⟩
    rw [foldlM_cons, StateT.run_bind, hfirst.run_unwind t, unwind]
    exact hrest.run_unwindRoots

end Tours

end Term

open Term

/-- Rebuilding with stacks is rebuilding by recursion. -/
theorem rebuildStacked_eq {W : Stock} {roots : List Term} (hroots : ∀ t ∈ roots, t ∈ W.terms)
    (descend : Term → Bool) {σ : Type} (visit : Term → List Term → StateM σ Term) :
    rebuildStacked descend visit roots = rebuildAll descend visit roots := by
  funext s
  rcases hvisits : ((visits descend roots).foldlM (visitNext descend visit) ∅).run s
    with ⟨memo, s'⟩
  have htour := tours_visits hroots hvisits
  change (rebuildStacked descend visit roots).run s = (rebuildAll descend visit roots).run s
  rw [htour.run_rebuildAll, rebuildStacked, StateT.run_bind, htour.run_unwindRoots]
  rfl

end Vouch
