import Vouch.Proofs.Flow.Order

/-!
# The Graph of a Body

A body has a graph if no label stands at two places and every jump leads to labels
that exist. Building it can fail in the middle of a list in two places, and both times
what is built is a function of what is there once it is known that nothing fails.

## Main definitions

* `Command.next`: What comes next after a command.

## Theorems

* `FlowGraph.ofBody_eq_ok_iff`: Which bodies have a graph, and which.
* `FlowGraph.successors_ofBody`: The successors of a node are what comes next.
-/

namespace Vouch

open List

theorem bind_eq_ok_iff {α β ε : Type} {x : Except ε α} {f : α → Except ε β} {b : β} :
    x >>= f = .ok b ↔ ∃ a, x = .ok a ∧ f a = .ok b := by
  cases x with
  | error e | ok a => simp [bind, Except.bind]

theorem mapM_eq_ok_iff {α β ε : Type} {f : α → Except ε β} {p : α → Prop} {r : α → β}
    (hf : ∀ x y, f x = .ok y ↔ p x ∧ y = r x) : ∀ {xs : List α} {ys : List β},
    xs.mapM f = .ok ys ↔ (∀ x ∈ xs, p x) ∧ ys = xs.map r
  | [], ys => by simp [pure, Except.pure, eq_comm]
  | x :: xs, ys => by
    simp only [mapM_cons, bind_eq_ok_iff, hf, mapM_eq_ok_iff hf, forall_mem_cons,
      map_cons, pure, Except.pure, Except.ok.injEq]
    constructor
    · rintro ⟨_, ⟨hx, rfl⟩, _, ⟨hxs, rfl⟩, rfl⟩
      exact ⟨⟨hx, hxs⟩, rfl⟩
    · rintro ⟨⟨hx, hxs⟩, rfl⟩
      exact ⟨_, ⟨hx, rfl⟩, _, ⟨hxs, rfl⟩, rfl⟩

/-- All labels the command jumps to exist. -/
def Command.Resolved (labels : NameMap Nat) (c : Command) : Prop :=
  match c.action with
  | .goto names => ∀ label ∈ names, (labels.find? label).isSome
  | _ => True

/-- What comes next after a command. -/
def Command.next (size : Nat) (labels : NameMap Nat) (c : Command) (node : Nat) : List Nat :=
  match c.action with
  | .goto names => names.map fun label => (labels.find? label).getD 0
  | _ => if node + 1 < size then [node + 1] else []

theorem Body.edgesFrom_eq_ok_iff {size node : Nat} {labels : NameMap Nat} {c : Command}
    {edges : List (Nat × Nat)} : edgesFrom size labels c node = .ok edges ↔
      c.Resolved labels ∧ edges = (c.next size labels node).map (node, ·) := by
  have hnext : (pure (if node + 1 < size then [(node, node + 1)] else []) :
      Except FlowError (List (Nat × Nat))) = .ok edges ↔
        edges = (if node + 1 < size then [node + 1] else []).map (node, ·) := by
    split <;> simp [pure, Except.pure, eq_comm]
  unfold edgesFrom Command.Resolved Command.next
  cases c.action with
  | goto names =>
    simp only [map_map]
    refine mapM_eq_ok_iff fun label edge => ?_
    cases htarget : labels.find? label with
    | none => simp [throw, throwThe, MonadExceptOf.throw]
    | some target => simp [pure, Except.pure, htarget, eq_comm]
  | _ => simpa using hnext

namespace FlowGraph

variable {body : Body} {g : FlowGraph}

/-- A body has a graph if its labels are different and its jumps lead to labels. -/
theorem ofBody_eq_ok_iff : ofBody body = .ok g ↔ ∃ labels, body.labelTable = .ok labels ∧
    (∀ c ∈ body, c.Resolved labels) ∧ g = ofEdges body.length (firstEntry body.length)
      (body.zipIdx.flatMap fun p => (p.1.next body.length labels p.2).map (p.2, ·)) := by
  have hedges : ∀ labels edges, (body.zipIdx.mapM fun p : Command × Nat =>
      Body.edgesFrom body.length labels p.1 p.2) = .ok edges ↔
        (∀ p ∈ body.zipIdx, p.1.Resolved labels) ∧ edges = body.zipIdx.map fun p =>
          (p.1.next body.length labels p.2).map (p.2, ·) :=
    fun _ _ => mapM_eq_ok_iff fun _ _ => Body.edgesFrom_eq_ok_iff
  have hresolved : ∀ labels, (∀ p ∈ body.zipIdx, p.1.Resolved labels) ↔
      ∀ c ∈ body, c.Resolved labels := by
    intro labels
    rw [← forall_mem_map (f := Prod.fst) (P := Command.Resolved labels), zipIdx_map_fst]
  simp only [ofBody, bind_eq_ok_iff, hedges, hresolved, pure, Except.pure, Except.ok.injEq]
  constructor
  · rintro ⟨labels, hlabels, _, ⟨hres, rfl⟩, rfl⟩
    exact ⟨labels, hlabels, hres, rfl⟩
  · rintro ⟨labels, hlabels, hres, rfl⟩
    exact ⟨labels, hlabels, _, ⟨hres, rfl⟩, rfl⟩

theorem successors_ofEdges {size u : Nat} (hu : u < size) (entry : Option Nat)
    (edges : List (Nat × Nat)) : (ofEdges size entry edges).successors u =
      targets ((edges.filter fun e => e.1 = u ∧ e.2 < size).map (·.2)) := by
  simp [successors, ofEdges, hu]

theorem filter_edges (size : Nat) (f : Command → Nat → List Nat) : ∀ {body : Body} (k : Nat)
    {v : Nat} {c : Command}, body[v]? = some c →
      (((body.zipIdx k).flatMap fun p => (f p.1 p.2).map (p.2, ·)).filter
        fun e => e.1 = k + v ∧ e.2 < size).map (·.2) = (f c (k + v)).filter (· < size)
  | [], _, _, _, hc => by simp at hc
  | d :: ds, k, 0, c, hc => by
    obtain rfl : d = c := by simpa using hc
    -- The commands after it have greater numbers.
    have hrest : ((ds.zipIdx (k + 1)).flatMap fun p => (f p.1 p.2).map (p.2, ·)).filter
        (fun e => e.1 = k + 0 ∧ e.2 < size) = [] := by
      rw [filter_eq_nil_iff]
      intro e he
      obtain ⟨p, hp, he⟩ := mem_flatMap.mp he
      obtain ⟨w, _, rfl⟩ := mem_map.mp he
      have hle := le_snd_of_mem_zipIdx hp
      have hne : p.2 ≠ k := by omega
      simp [hne]
    rw [zipIdx_cons, flatMap_cons, filter_append, hrest]
    simp [filter_map, Function.comp_def]
  | d :: ds, k, v + 1, c, hc => by
    have hhead : ((f d k).map (k, ·)).filter (fun e => e.1 = k + (v + 1) ∧ e.2 < size) = [] := by
      rw [filter_eq_nil_iff]
      intro e he
      obtain ⟨w, _, rfl⟩ := mem_map.mp he
      simp
    have hc : ds[v]? = some c := hc
    have hrest := filter_edges size f (k + 1) hc
    rw [zipIdx_cons, flatMap_cons, filter_append, hhead, nil_append]
    rw [show k + 1 + v = k + (v + 1) by omega] at hrest
    exact hrest

theorem successors_ofBody (hg : ofBody body = .ok g) {labels : NameMap Nat}
    (hlabels : body.labelTable = .ok labels) {v : Nat} {c : Command} (hc : body[v]? = some c) :
    g.successors v = targets ((c.next body.length labels v).filter (· < body.length)) := by
  rcases ofBody_eq_ok_iff.mp hg with ⟨labels', hlabels', _, rfl⟩
  -- There is only one table of labels.
  obtain rfl : labels = labels' := by simpa [hlabels] using hlabels'
  have hv : v < body.length := (List.getElem?_eq_some_iff.mp hc).1
  have hedges := filter_edges body.length (fun c => c.next body.length labels) 0 hc
  rw [Nat.zero_add] at hedges
  rw [successors_ofEdges hv, hedges]

theorem size_ofBody (hg : ofBody body = .ok g) : g.size = body.length := by
  rcases ofBody_eq_ok_iff.mp hg with ⟨_, _, _, rfl⟩
  simp [size, ofEdges]

theorem entry_ofBody (hg : ofBody body = .ok g) : g.entry = firstEntry body.length := by
  rcases ofBody_eq_ok_iff.mp hg with ⟨_, _, _, rfl⟩
  rfl

theorem entry_lt_size (hg : ofBody body = .ok g) {e : Nat} (hentry : g.entry = some e) :
    e < g.size := by
  rw [entry_ofBody hg, firstEntry] at hentry
  rw [size_ofBody hg]
  split at hentry
  · cases hentry
  · cases hentry
    omega

end FlowGraph

end Vouch
