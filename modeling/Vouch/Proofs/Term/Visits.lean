import Mathlib.Data.Finset.Lattice.Lemmas
import Vouch.Proofs.Term.Unsharing

/-!
# Every Node Is Visited Once

The nodes in the order in which a walk over the tree leaves them, each at its first
occurrence only, are the nodes that are visited, and rebuilding is visiting one after
the other. What is remembered is closed: if a node is known, then so is everything below
it.

## Main definitions

* `Term.visits`: The nodes that are visited, in order.
* `Term.Settled`: With a node everything below it is remembered.
* `Term.Tours`: Trees are gone over, from one memory to another.

## Theorems

* `Term.Tours.split`: One tree after the other.
* `Term.Tours.new`: What is below a node, and then the node.
* `Term.resultIn_of_visits`: What is remembered is what plain recursion comes to.
* `rebuildAll_visits_once`: Rebuilding visits each node once.
-/

namespace Vouch

open List

namespace Term

section Orders

variable (descend : Term → Bool)

/-- The operands that are entered from a node. -/
def followed (t : Term) : List Term :=
  if descend t then t.children else []

mutual

/-- The nodes of a tree in the order they are left, at every occurrence. -/
def postorder : Term → List Term
  | node id h cs as =>
    (if descend (node id h cs as) then postorderAll cs else []) ++ [node id h cs as]

/-- The same for trees from left to right. -/
def postorderAll : List Term → List Term
  | [] => []
  | t :: ts => postorder t ++ postorderAll ts

end

/-- The nodes that were not seen, each at its first occurrence. -/
def firsts (seen : Finset NodeId) : List Term → List Term
  | [] => []
  | t :: ts => if t.ident ∈ seen then firsts seen ts else t :: firsts (insert t.ident seen) ts

/-- The nodes that are visited, in order. -/
def visits (roots : List Term) : List Term :=
  firsts ∅ (postorderAll descend roots)

/-- The node is reached from a root through nodes whose operands are entered. -/
inductive Met (roots : List Term) : Term → Prop
  | root {t : Term} : t ∈ roots → Met roots t
  | operand {p t : Term} : Met roots p → t ∈ p.followed descend → Met roots t

end Orders

variable {descend : Term → Bool} {t u : Term} {ts roots : List Term} {W : Stock}
  {seen : Finset NodeId}

theorem postorder_eq (t : Term) :
    postorder descend t = postorderAll descend (t.followed descend) ++ [t] := by
  obtain ⟨id, h, cs, as⟩ := t
  rw [postorder, followed]
  split <;> rfl

theorem mem_postorderAll : u ∈ postorderAll descend ts ↔ ∃ t ∈ ts, u ∈ postorder descend t := by
  induction ts with
  | nil => simp [postorderAll]
  | cons t ts ih => simp [postorderAll, ih]

theorem mem_children_of_followed (h : u ∈ t.followed descend) : u ∈ t.children := by
  unfold followed at h
  split at h
  · exact h
  · simp at h

theorem Met.mem (hroots : ∀ t ∈ roots, t ∈ W.terms) (h : Met descend roots t) : t ∈ W.terms := by
  induction h with
  | root ht => exact hroots _ ht
  | operand _ hc ih => exact W.closed _ ih _ (mem_children_of_followed hc)

theorem Met.sizeOf_lt (h : Met descend (t.followed descend) u) : sizeOf u < sizeOf t := by
  induction h with
  | root hu => exact sizeOf_lt_of_mem_children (mem_children_of_followed hu)
  | operand _ hc ih => exact (sizeOf_lt_of_mem_children (mem_children_of_followed hc)).trans ih

theorem met_of_mem_postorder (t : Term) :
    Met descend roots t → ∀ u ∈ postorder descend t, Met descend roots u := by
  induction t using Term.induction with
  | step t ih =>
    intro ht u hu
    rw [postorder_eq] at hu
    rcases mem_append.mp hu with hu | hu
    · rcases mem_postorderAll.mp hu with ⟨c, hc, hu⟩
      exact ih c (mem_children_of_followed hc) (.operand ht hc) u hu
    · rwa [mem_singleton.mp hu]

theorem mem_postorder_of_followed (t : Term) : ∀ p ∈ postorder descend t, ∀ c ∈ p.followed descend,
    c ∈ postorder descend t := by
  induction t using Term.induction with
  | step t ih =>
    intro p hp c hc
    rw [postorder_eq] at hp ⊢
    refine mem_append_left _ (mem_postorderAll.mpr ?_)
    rcases mem_append.mp hp with hp | hp
    · rcases mem_postorderAll.mp hp with ⟨d, hd, hp⟩
      exact ⟨d, hd, ih d (mem_children_of_followed hd) p hp c hc⟩
    · rw [mem_singleton.mp hp] at hc
      exact ⟨c, hc, by simp [postorder_eq]⟩

theorem mem_postorderAll_iff : u ∈ postorderAll descend roots ↔ Met descend roots u := by
  refine ⟨fun h => ?_, fun h => ?_⟩
  · rcases mem_postorderAll.mp h with ⟨t, ht, hu⟩
    exact met_of_mem_postorder t (.root ht) u hu
  · induction h with
    | root ht => exact mem_postorderAll.mpr ⟨_, ht, by simp [postorder_eq]⟩
    | operand _ hc ih =>
      rcases mem_postorderAll.mp ih with ⟨t, ht, hp⟩
      exact mem_postorderAll.mpr ⟨t, ht, mem_postorder_of_followed t _ hp _ hc⟩

/-! ### First occurrences -/

theorem firsts_append (seen : Finset NodeId) (ts us : List Term) :
    firsts seen (ts ++ us) = firsts seen ts ++ firsts (seen ∪ (ts.map ident).toFinset) us := by
  induction ts generalizing seen with
  | nil => rw [map_nil, toFinset_nil, Finset.union_empty]; rfl
  | cons t ts ih =>
    rw [cons_append, firsts, firsts, map_cons, toFinset_cons, Finset.union_insert,
      ← Finset.insert_union]
    split
    · next h => rw [ih, Finset.insert_eq_self.mpr h]
    · rw [ih, cons_append]

theorem firsts_eq_nil (h : ∀ t ∈ ts, t.ident ∈ seen) : firsts seen ts = [] := by
  induction ts with
  | nil => rfl
  | cons t ts ih =>
    rw [firsts, if_pos (h t mem_cons_self)]
    exact ih (forall_mem_cons.mp h).2

theorem ident_mem_firsts (i : NodeId) :
    i ∈ (firsts seen ts).map ident ↔ i ∉ seen ∧ i ∈ ts.map ident := by
  induction ts generalizing seen with
  | nil => simp [firsts]
  | cons t ts ih =>
    rw [firsts]
    by_cases ht : t.ident ∈ seen
    · rw [if_pos ht, ih]
      have hne : i ∉ seen → i ≠ t.ident := fun hi heq => hi (heq ▸ ht)
      simp +contextual [hne]
    · rw [if_neg ht, map_cons, mem_cons, ih]
      by_cases hi : i = t.ident
      · simp [hi, ht]
      · simp [hi]

theorem nodup_firsts : ((firsts seen ts).map ident).Nodup := by
  induction ts generalizing seen with
  | nil => simp [firsts]
  | cons t ts ih =>
    rw [firsts]
    split
    · exact ih
    · rw [map_cons, nodup_cons]
      exact ⟨fun h => ((ident_mem_firsts _).mp h).1 (Finset.mem_insert_self _ _), ih⟩

theorem firsts_subset : firsts seen ts ⊆ ts := by
  induction ts generalizing seen with
  | nil => exact nil_subset _
  | cons t ts ih =>
    rw [firsts]
    split
    · exact fun u hu => mem_cons_of_mem _ (ih hu)
    · exact cons_subset_cons _ ih

/-! ### Visiting -/

/-- What became of a node. -/
def resultIn (memo : NodeMap Term) (t : Term) : Term :=
  memo[t.ident]?.getD t

variable {σ : Type} {visit : Term → List Term → StateM σ Term} {memo memo' : NodeMap Term}
  {s s' : σ}

/-- Visit a node and remember the result. -/
def visitNext (descend : Term → Bool) (visit : Term → List Term → StateM σ Term)
    (memo : NodeMap Term) (t : Term) : StateM σ (NodeMap Term) := do
  let result ← visit t (if descend t then t.children.map (resultIn memo) else t.children)
  return memo.insert t.ident result

theorem run_visitNext (t : Term) (memo : NodeMap Term) (s : σ) :
    (visitNext descend visit memo t).run s =
      (fun done : Term × σ => (memo.insert t.ident done.1, done.2))
        ((visit t (if descend t then t.children.map (resultIn memo) else t.children)).run s) :=
  rfl

theorem getElem?_of_visits : ∀ {ts : List Term} {memo : NodeMap Term} {s : σ},
    (ts.foldlM (visitNext descend visit) memo).run s = (memo', s') →
    (∀ i, i ∈ memo' ↔ i ∈ memo ∨ i ∈ ts.map ident) ∧
      ∀ i, i ∉ ts.map ident → memo'[i]? = memo[i]?
  | [], _, _, h => by
    cases h
    simp
  | t :: ts, memo, s, h => by
    rw [foldlM_cons, StateT.run_bind, run_visitNext] at h
    rcases getElem?_of_visits h with ⟨hkeys, hold⟩
    refine ⟨fun i => ?_, fun i hi => ?_⟩
    · rw [hkeys, Std.TreeMap.mem_insert, Std.LawfulEqCmp.compare_eq_iff_eq, map_cons,
        mem_cons]
      tauto
    · rw [map_cons, mem_cons, not_or] at hi
      rw [hold i hi.2, Std.TreeMap.getElem?_insert, if_neg]
      simpa using Ne.symm hi.1

/-- What is remembered has an end: with a node it has everything below. -/
def Settled (descend : Term → Bool) (W : Stock) (memo : NodeMap Term) : Prop :=
  ∀ t ∈ W.terms, t.ident ∈ memo → ∀ c ∈ t.followed descend, c.ident ∈ memo

theorem Settled.of_met (h : Settled descend W memo) (hroots : ∀ t ∈ roots, t ∈ W.terms)
    (hmemo : ∀ t ∈ roots, t.ident ∈ memo) (hu : Met descend roots u) : u.ident ∈ memo := by
  induction hu with
  | root ht => exact hmemo _ ht
  | operand hp hc ih => exact h _ (hp.mem hroots) ih _ hc

/-- The trees are gone over, starting with one memory and ending with another. -/
structure Tours (descend : Term → Bool) (visit : Term → List Term → StateM σ Term) (W : Stock)
    (ts : List Term) (memo : NodeMap Term) (s : σ) (memo' : NodeMap Term) (s' : σ) : Prop where
  mem : ∀ t ∈ ts, t ∈ W.terms
  settled : Settled descend W memo
  run : ∃ seen : Finset NodeId, (∀ i, i ∈ memo ↔ i ∈ seen) ∧
    ((firsts seen (postorderAll descend ts)).foldlM (visitNext descend visit) memo).run s =
      (memo', s')

namespace Tours

theorem mem_iff (h : Tours descend visit W ts memo s memo' s') (i : NodeId) :
    i ∈ memo' ↔ i ∈ memo ∨ i ∈ (postorderAll descend ts).map ident := by
  rcases h.run with ⟨seen, hseen, hrun⟩
  rw [(getElem?_of_visits hrun).1, ident_mem_firsts, hseen]
  tauto

theorem settled_after (h : Tours descend visit W ts memo s memo' s') :
    Settled descend W memo' := by
  intro t ht hmemo c hc
  rw [h.mem_iff] at hmemo ⊢
  refine hmemo.imp (fun hold => h.settled t ht hold c hc) fun hnew => ?_
  rcases mem_map.mp hnew with ⟨u, hu, hut⟩
  rw [mem_postorderAll_iff] at hu
  -- An identity belongs to one node.
  rw [W.identified u (hu.mem h.mem) t ht hut] at hu
  exact mem_map_of_mem (mem_postorderAll_iff.mpr (.operand hu hc))

/-- The trees are gone over one after the other, and what became of the first stays. -/
theorem split (h : Tours descend visit W (t :: ts) memo s memo' s') : ∃ memo₁ s₁,
    Tours descend visit W [t] memo s memo₁ s₁ ∧ Tours descend visit W ts memo₁ s₁ memo' s' ∧
      resultIn memo' t = resultIn memo₁ t := by
  rcases h.run with ⟨seen, hseen, hrun⟩
  have hone : postorderAll descend [t] = postorder descend t := by simp [postorderAll]
  rw [postorderAll, firsts_append, foldlM_append, StateT.run_bind] at hrun
  rcases hfirst : ((firsts seen (postorder descend t)).foldlM (visitNext descend visit) memo).run s
    with ⟨memo₁, s₁⟩
  rw [hfirst] at hrun
  have htour : Tours descend visit W [t] memo s memo₁ s₁ :=
    ⟨by simpa using h.mem t mem_cons_self, h.settled, seen, hseen, hone.symm ▸ hfirst⟩
  have hseen₁ : ∀ i, i ∈ memo₁ ↔ i ∈ seen ∪ ((postorder descend t).map ident).toFinset := by
    intro i
    rw [htour.mem_iff, hone, hseen, Finset.mem_union, mem_toFinset]
  refine ⟨memo₁, s₁, htour, ⟨fun u hu => h.mem u (mem_cons_of_mem _ hu), htour.settled_after,
    _, hseen₁, hrun⟩, ?_⟩
  have hknown : t.ident ∈ seen ∪ ((postorder descend t).map ident).toFinset := by
    rw [Finset.mem_union, mem_toFinset]
    exact .inr (mem_map_of_mem (by simp [postorder_eq]))
  have hkept := (getElem?_of_visits hrun).2 t.ident fun hmem =>
    ((ident_mem_firsts _).mp hmem).1 hknown
  rw [resultIn, resultIn, hkept]

theorem nil (h : Tours descend visit W [] memo s memo' s') : memo' = memo ∧ s' = s := by
  rcases h.run with ⟨seen, _, hrun⟩
  cases hrun
  exact ⟨rfl, rfl⟩

/-- From a known node there is nothing to do, because what is below is known too. -/
theorem known (h : Tours descend visit W [t] memo s memo' s') (ht : t.ident ∈ memo) :
    memo' = memo ∧ s' = s := by
  rcases h.run with ⟨seen, hseen, hrun⟩
  have hnil : firsts seen (postorderAll descend [t]) = [] := firsts_eq_nil fun u hu =>
    (hseen _).mp (h.settled.of_met h.mem (by simpa using ht) (mem_postorderAll_iff.mp hu))
  rw [hnil] at hrun
  cases hrun
  exact ⟨rfl, rfl⟩

/-- From a new node what is below is gone over, which does not lead back to it, and then
    it is visited. -/
theorem new (h : Tours descend visit W [t] memo s memo' s') (ht : t.ident ∉ memo) : ∃ memo₁ s₁,
    Tours descend visit W (t.followed descend) memo s memo₁ s₁ ∧ t.ident ∉ memo₁ ∧
      (visitNext descend visit memo₁ t).run s₁ = (memo', s') := by
  rcases h.run with ⟨seen, hseen, hrun⟩
  have htW := h.mem t (mem_singleton_self t)
  have hbelow : ∀ c ∈ t.followed descend, c ∈ W.terms := fun c hc =>
    W.closed t htW c (mem_children_of_followed hc)
  have hone : postorderAll descend [t] = postorderAll descend (t.followed descend) ++ [t] := by
    simp [postorderAll, postorder_eq]
  -- No node is below itself.
  have hnew : t.ident ∉ (postorderAll descend (t.followed descend)).map ident := by
    intro hmem
    rcases mem_map.mp hmem with ⟨u, hu, hut⟩
    rw [mem_postorderAll_iff] at hu
    have hlt := hu.sizeOf_lt
    rw [W.identified u (hu.mem hbelow) t htW hut] at hlt
    omega
  have hunseen : t.ident ∉
      seen ∪ ((postorderAll descend (t.followed descend)).map ident).toFinset := by
    rw [Finset.mem_union, mem_toFinset, not_or, ← hseen]
    exact ⟨ht, hnew⟩
  rw [hone, firsts_append, foldlM_append, StateT.run_bind, firsts, if_neg hunseen,
    firsts] at hrun
  rcases hfirst : ((firsts seen (postorderAll descend (t.followed descend))).foldlM
    (visitNext descend visit) memo).run s with ⟨memo₁, s₁⟩
  rw [hfirst] at hrun
  have hbelow : Tours descend visit W (t.followed descend) memo s memo₁ s₁ :=
    ⟨hbelow, h.settled, seen, hseen, hfirst⟩
  refine ⟨memo₁, s₁, hbelow, fun hmem => ?_, ?_⟩
  · exact ((hbelow.mem_iff _).mp hmem).elim ht hnew
  · rw [← hrun]
    rfl

end Tours

theorem run_rebuildNodes (ih : ∀ t ∈ ts, ∀ {memo s memo' s'},
      Tours descend visit W [t] memo s memo' s' →
      ((rebuildNode descend visit t).run memo).run s = ((resultIn memo' t, memo'), s')) :
    ∀ {memo s}, Tours descend visit W ts memo s memo' s' →
      ((rebuildNodes descend visit ts).run memo).run s =
        ((ts.map (resultIn memo'), memo'), s') := by
  induction ts with
  | nil =>
    intro memo s h
    rcases h.nil with ⟨rfl, rfl⟩
    rw [rebuildNodes]
    rfl
  | cons t ts ihs =>
    intro memo s h
    rcases h.split with ⟨memo₁, s₁, hfirst, hrest, hresult⟩
    have hnode := ih t mem_cons_self hfirst
    have hnodes := ihs ((forall_mem_cons.mp ih).2) hrest
    rw [rebuildNodes_cons, StateT.run_bind, hnode]
    change ((rebuildNodes descend visit ts).run memo₁ >>= _).run s₁ = _
    rw [StateT.run_bind, hnodes, map_cons, hresult]
    rfl

theorem run_rebuildNode (t : Term) : ∀ {memo s memo' s'},
    Tours descend visit W [t] memo s memo' s' →
    ((rebuildNode descend visit t).run memo).run s = ((resultIn memo' t, memo'), s') := by
  induction t using Term.induction with
  | step t ih =>
    intro memo s memo' s' h
    cases hfound : memo[t.ident]? with
    | some r =>
      have hmem : t.ident ∈ memo := by
        rw [Std.TreeMap.mem_iff_isSome_getElem?, hfound]
        rfl
      rcases h.known hmem with ⟨rfl, rfl⟩
      rw [rebuildNode_of_some hfound, resultIn, hfound]
      rfl
    | none =>
      have hmem : t.ident ∉ memo := by
        rw [Std.TreeMap.mem_iff_isSome_getElem?, hfound]
        simp
      rcases h.new hmem with ⟨memo₁, s₁, hbelow, _, hvisit⟩
      have hoperands : ((if descend t then (rebuildNodes descend visit t.children).run memo
          else pure (t.children, memo) : StateM σ _).run s) =
          ((if descend t then t.children.map (resultIn memo₁) else t.children, memo₁), s₁) := by
        unfold followed at hbelow
        by_cases hd : descend t = true
        · rw [if_pos hd] at hbelow ⊢
          rw [if_pos hd]
          exact run_rebuildNodes (fun c hc => ih c hc) hbelow
        · rw [if_neg hd] at hbelow ⊢
          rw [if_neg hd]
          rcases hbelow.nil with ⟨rfl, rfl⟩
          rfl
      rw [rebuildNode_of_none hfound, StateT.run_bind, hoperands]
      rw [run_visitNext] at hvisit
      rcases hresult : (visit t (if descend t then t.children.map (resultIn memo₁)
        else t.children)).run s₁ with ⟨r, s₂⟩
      rw [hresult] at hvisit
      cases hvisit
      change (visit t _ >>= fun r => pure (r, memo₁.insert t.ident r) : StateM σ _).run s₁ = _
      rw [StateT.run_bind, hresult, resultIn, Std.TreeMap.getElem?_insert_self]
      rfl

theorem Tours.run_rebuildAll (h : Tours descend visit W roots ∅ s memo s') :
    (rebuildAll descend visit roots).run s = (roots.map (resultIn memo), s') := by
  rw [rebuildAll, StateT.run_bind, run_rebuildNodes (fun t _ => run_rebuildNode t) h]
  rfl

/-- Visiting one node after the other is a tour that starts with nothing known. -/
theorem tours_visits (hroots : ∀ t ∈ roots, t ∈ W.terms)
    (h : ((visits descend roots).foldlM (visitNext descend visit) ∅).run s = (memo, s')) :
    Tours descend visit W roots ∅ s memo s' :=
  ⟨hroots, fun t _ ht => absurd ht (by simp), ∅, by simp, h⟩

/-! ### The order -/

/-- In the list every node stands after the operands that are entered from it. -/
def Upward (descend : Term → Bool) (l : List Term) : Prop :=
  ∀ p t q, l = p ++ t :: q → ∀ c ∈ t.followed descend, c ∈ p

theorem Upward.append {l l' : List Term} (h : Upward descend l) (h' : Upward descend l') :
    Upward descend (l ++ l') := by
  intro p t q hsplit c hc
  rcases append_eq_append_iff.mp hsplit with ⟨r, rfl, hl'⟩ | ⟨r, hl, hr⟩
  · exact mem_append_right _ (h' r t q hl' c hc)
  · cases r with
    | nil => exact absurd (h' [] t q hr.symm c hc) not_mem_nil
    | cons x r =>
      rw [cons_append, List.cons.injEq] at hr
      exact h p t r (hr.1 ▸ hl) c hc

theorem upward_postorderAll (h : ∀ t ∈ ts, Upward descend (postorder descend t)) :
    Upward descend (postorderAll descend ts) := by
  induction ts with
  | nil => intro p t q hsplit; simp [postorderAll] at hsplit
  | cons t ts ih =>
    rw [postorderAll]
    exact (h t mem_cons_self).append (ih (forall_mem_cons.mp h).2)

theorem upward_postorder (t : Term) : Upward descend (postorder descend t) := by
  induction t using Term.induction with
  | step t ih =>
    have hbelow : Upward descend (postorderAll descend (t.followed descend)) :=
      upward_postorderAll fun c hc => ih c (mem_children_of_followed hc)
    intro p u q hsplit c hc
    rw [postorder_eq] at hsplit
    rcases eq_nil_or_concat q with rfl | ⟨q, x, rfl⟩
    · rcases append_inj' hsplit rfl with ⟨rfl, hu⟩
      rw [singleton_inj.mp hu] at *
      exact mem_postorderAll_iff.mpr (.root hc)
    · rw [concat_eq_append, ← cons_append, ← append_assoc] at hsplit
      exact hbelow p u q (append_inj' hsplit rfl).1 c hc

theorem exists_split_of_firsts : ∀ {ts : List Term} {seen : Finset NodeId} {p q : List Term},
    firsts seen ts = p ++ t :: q → ∃ p' q', ts = p' ++ t :: q' ∧ firsts seen p' = p
  | [], _, _, _, h => by simp [firsts] at h
  | u :: ts, seen, p, q, h => by
    rw [firsts] at h
    split at h
    · next hu =>
      rcases exists_split_of_firsts h with ⟨p', q', rfl, rfl⟩
      exact ⟨u :: p', q', rfl, by rw [firsts, if_pos hu]⟩
    · next hu =>
      cases p with
      | nil =>
        rw [nil_append, List.cons.injEq] at h
        exact ⟨[], ts, by rw [h.1, nil_append], rfl⟩
      | cons x p =>
        rw [cons_append, List.cons.injEq] at h
        rcases exists_split_of_firsts h.2 with ⟨p', q', rfl, rfl⟩
        exact ⟨u :: p', q', rfl, by rw [firsts, if_neg hu, h.1]⟩

theorem mem_visits_iff (hroots : ∀ t ∈ roots, t ∈ W.terms) :
    t ∈ visits descend roots ↔ Met descend roots t := by
  refine ⟨fun h => mem_postorderAll_iff.mp (firsts_subset h), fun h => ?_⟩
  have hid : t.ident ∈ (visits descend roots).map ident := (ident_mem_firsts _).mpr
    ⟨Finset.notMem_empty _, mem_map_of_mem (mem_postorderAll_iff.mpr h)⟩
  rcases mem_map.mp hid with ⟨u, hu, hut⟩
  have huW := (mem_postorderAll_iff.mp (firsts_subset hu)).mem hroots
  rwa [← W.identified u huW t (h.mem hroots) hut]

theorem upward_visits (hroots : ∀ t ∈ roots, t ∈ W.terms) :
    Upward descend (visits descend roots) := by
  intro p t q hsplit c hc
  have hmet : ∀ u ∈ visits descend roots, u ∈ W.terms := fun u hu =>
    ((mem_visits_iff hroots).mp hu).mem hroots
  rcases exists_split_of_firsts hsplit with ⟨p', q', hall, rfl⟩
  have hcp := upward_postorderAll (fun t _ => upward_postorder t) p' t q' hall c hc
  have hid : c.ident ∈ (firsts ∅ p').map ident :=
    (ident_mem_firsts _).mpr ⟨Finset.notMem_empty _, mem_map_of_mem hcp⟩
  rcases mem_map.mp hid with ⟨u, hu, huc⟩
  have huW := hmet u (hsplit ▸ mem_append_left _ hu)
  have htW := hmet t (hsplit ▸ mem_append_right _ mem_cons_self)
  rwa [← W.identified u huW c (W.closed t htW c (mem_children_of_followed hc)) huc]

/-! ### Plain recursion -/

mutual

/-- The tree rewritten from below, every occurrence of a node anew. -/
def rewritten (descend : Term → Bool) (f : Term → List Term → Term) : Term → Term
  | node id h cs as => f (node id h cs as)
      (if descend (node id h cs as) then rewrittenAll descend f cs else cs)

/-- The same for trees from left to right. -/
def rewrittenAll (descend : Term → Bool) (f : Term → List Term → Term) : List Term → List Term
  | [] => []
  | t :: ts => rewritten descend f t :: rewrittenAll descend f ts

end

variable {f : Term → List Term → Term}

theorem rewritten_eq (t : Term) : rewritten descend f t =
    f t (if descend t then t.children.map (rewritten descend f) else t.children) := by
  have hall : ∀ ts : List Term, rewrittenAll descend f ts = ts.map (rewritten descend f) := by
    intro ts
    induction ts with
    | nil => rfl
    | cons t ts ih => rw [rewrittenAll, ih, map_cons]
  obtain ⟨id, h, cs, as⟩ := t
  rw [rewritten, hall]
  rfl

/-- Where results depend on what is visited only, what is remembered of a node is
    what recursion makes of it. -/
theorem resultIn_of_visits (hf : ∀ t cs s, ((visit t cs).run s).1 = f t cs)
    (hmem : ∀ t ∈ ts, t ∈ W.terms) (hup : Upward descend ts) : ∀ {memo' s'},
    (ts.foldlM (visitNext descend visit) ∅).run s = (memo', s') →
    ∀ t ∈ ts, resultIn memo' t = rewritten descend f t := by
  induction ts using List.reverseRecOn with
  | nil => simp
  | append_singleton ts u ih =>
    intro memo' s' hrun t ht
    have hupward : Upward descend ts := fun p x q hsplit =>
      hup p x (q ++ [u]) (by rw [hsplit, append_assoc, cons_append])
    rw [foldlM_append, StateT.run_bind] at hrun
    rcases hfirst : (ts.foldlM (visitNext descend visit) ∅).run s with ⟨memo₁, s₁⟩
    have hold := ih (fun t ht => hmem t (mem_append_left _ ht)) hupward hfirst
    have huW : u ∈ W.terms := hmem u (mem_append_right _ (mem_singleton_self u))
    rw [hfirst] at hrun
    have hlast : (visitNext descend visit memo₁ u).run s₁ = (memo', s') := hrun
    -- The operands were visited before, and so the result is what recursion gives.
    have hoperands : (if descend u then u.children.map (resultIn memo₁) else u.children) =
        if descend u then u.children.map (rewritten descend f) else u.children := by
      by_cases hd : descend u = true
      · rw [if_pos hd, if_pos hd]
        exact map_congr_left fun c hc =>
          hold c (hup ts u [] rfl c (by rwa [followed, if_pos hd]))
      · rw [if_neg hd, if_neg hd]
    rw [run_visitNext, hoperands] at hlast
    have hvalue : ((visit u _).run s₁).1 = rewritten descend f u :=
      (hf u _ s₁).trans (rewritten_eq u).symm
    cases hlast
    rw [resultIn, Std.TreeMap.getElem?_insert, hvalue]
    by_cases hut : u = t
    · simp [hut]
    · have hts := (mem_append.mp ht).resolve_right fun h => hut (mem_singleton.mp h).symm
      have hne : u.ident ≠ t.ident := fun h => hut (W.identified u huW t (hmem t ht) h)
      rw [if_neg (by simpa using hne)]
      exact hold t hts

end Term

open Term

/-- Rebuilding terms is visiting the nodes that are met from the roots, each of them
    once and after the operands that are entered from it, in the order in which a walk
    from left to right leaves them for the first time. A node is visited with what
    became of its operands, or with the operands themselves if they are not entered.
    If results depend on nothing but what is visited, they are those of plain
    recursion. -/
theorem rebuildAll_visits_once {W : Stock} {roots : List Term} (hroots : ∀ t ∈ roots, t ∈ W.terms)
    (descend : Term → Bool) {σ : Type} (visit : Term → List Term → StateM σ Term) :
    ((visits descend roots).map ident).Nodup ∧
    (∀ t, t ∈ visits descend roots ↔ Met descend roots t) ∧
    Upward descend (visits descend roots) ∧
    rebuildAll descend visit roots = (do
      let memo ← (visits descend roots).foldlM (visitNext descend visit) ∅
      return roots.map (resultIn memo)) ∧
    ∀ f : Term → List Term → Term, (∀ t cs s, ((visit t cs).run s).1 = f t cs) →
      ∀ s, ((rebuildAll descend visit roots).run s).1 = roots.map (rewritten descend f) := by
  have hrun : ∀ s, (rebuildAll descend visit roots).run s =
      (fun done : NodeMap Term × σ => (roots.map (resultIn done.1), done.2))
        (((visits descend roots).foldlM (visitNext descend visit) ∅).run s) := by
    intro s
    rcases hvisits : ((visits descend roots).foldlM (visitNext descend visit) ∅).run s
      with ⟨memo, s'⟩
    exact (tours_visits hroots hvisits).run_rebuildAll
  refine ⟨nodup_firsts, fun t => mem_visits_iff hroots, upward_visits hroots, funext hrun,
    fun f hf s => ?_⟩
  rw [hrun]
  refine map_congr_left fun t ht => ?_
  refine resultIn_of_visits hf (fun u hu => ((mem_visits_iff hroots).mp hu).mem hroots)
    (upward_visits hroots) rfl t ?_
  exact (mem_visits_iff hroots).mpr (.root ht)

/-- A variable and its sum with itself. -/
def doubledNodes : List Term :=
  let x := .node ⟨0, 0⟩ { op := .var, sort := .int, payload := some (.name "x") } [] []
  [x, .node ⟨0, 1⟩ { op := .add, sort := .int } [x, x] []]

/-- From the sum and the variable, which are three occurrences of the variable, there
    are two visits. -/
theorem rebuildAll_visits_once_doubled :
    let visit : Term → List Term → StateM Nat Term := fun t _ count => (t, count + 1)
    (∀ t ∈ doubledNodes.reverse, t ∈ doubledNodes) ∧
    (visits (fun _ => true) doubledNodes.reverse).map ident = [⟨0, 0⟩, ⟨0, 1⟩] ∧
    ((visits (fun _ => true) doubledNodes.reverse).map ident).Nodup ∧
    ((rebuildAll (fun _ => true) visit doubledNodes.reverse).run 0).2 = 2 := by
  let W := Stock.ofList doubledNodes 1 (by simp [doubledNodes, Term.children]) (by decide)
  have hroots : ∀ t ∈ doubledNodes.reverse, t ∈ W.terms := fun t ht => mem_reverse.mp ht
  have h := rebuildAll_visits_once hroots (fun _ => true)
    fun t _ => (fun count => (t, count + 1) : StateM Nat Term)
  refine ⟨hroots, by decide +kernel, h.1, ?_⟩
  rw [h.2.2.2.1]
  decide +kernel

end Vouch
