import Vouch.Proofs.Flow.Insertion

/-!
# Commands Put In Can Be Taken Out

Making loops forget what they write changes a body in one way only: commands are put in,
and each takes the labels of the command it is put before. So nothing of the old body is
lost. The same is true of the graph.

## Main definitions

* `Body.withdraw`: A body without the commands at some places.
* `Havocked.Splices`: Commands were put in that forget.

## Theorems

* `LoopAnalysis.withdraw_spliced`: Taking them out gives the old body back.
* `havocs_spliced`: They are put in, and only before nodes on cycles.
-/

namespace Vouch

open List

/-- The rest of a body, from a place on, without the commands at the given places. Each of
    these gives its labels to the command after it, and `labels` were given to the first. -/
def Body.withdraw (places : List Nat) : (place : Nat) → (labels : List String) → Body → Body
  | _, _, [] => []
  | place, labels, c :: cs =>
    if place ∈ places then withdraw places (place + 1) (labels ++ c.labels) cs
    else { c with labels := labels ++ c.labels } :: withdraw places (place + 1) [] cs

namespace LoopAnalysis

variable (a : LoopAnalysis) {body : Body} {v : Nat}

/-- Where commands are put in. -/
def places (body : Body) : List Nat :=
  ((List.range body.length).filter fun v => (a.havocSet? v).isSome).map a.start

theorem start_mem_places :
    a.start v ∈ a.places body ↔ v < body.length ∧ (a.havocSet? v).isSome := by
  simp [places, a.start_strictMono.injective.eq_iff]

theorem image_not_mem_places : a.image v ∉ a.places body := by
  intro h
  obtain ⟨u, hu, heq⟩ := mem_map.mp h
  exact a.image_ne_start (mem_filter.mp hu).2 v heq.symm

theorem length_places : (a.places body).length = a.inserted body :=
  length_map ..

theorem start_eq : ∀ v,
    a.start v = v + ((List.range v).filter fun v => (a.havocSet? v).isSome).length
  | 0 => rfl
  | v + 1 => by
    rw [start, start_eq v, range_succ, filter_append, length_append]
    cases h : a.havocSet? v <;> simp [h] <;> omega

theorem mem_places_or_image {x : Nat} (hx : x < a.start body.length) :
    x ∈ a.places body ∨ ∃ v < body.length, x = a.image v := by
  -- The last node that starts at the place or before it is the one.
  obtain ⟨v, hle, hlt⟩ : ∃ v, a.start v ≤ x ∧ x < a.start (v + 1) := by
    have hex : ∃ n, x < a.start n := ⟨_, hx⟩
    obtain ⟨v, hv⟩ := Nat.exists_eq_succ_of_ne_zero (n := Nat.find hex) fun hzero => by
      have hspec := Nat.find_spec hex
      rw [hzero, start] at hspec
      omega
    refine ⟨v, Nat.le_of_not_lt (Nat.find_min hex (by omega)), ?_⟩
    rw [← Nat.succ_eq_add_one, ← hv]
    exact Nat.find_spec hex
  have hv : v < body.length := a.start_strictMono.lt_iff_lt.mp (Nat.lt_of_le_of_lt hle hx)
  by_cases himage : x = a.image v
  · exact .inr ⟨v, hv, himage⟩
  · rw [start_succ] at hlt
    have hsome : (a.havocSet? v).isSome := by
      refine a.start_ne_image.mp fun heq => himage ?_
      omega
    obtain rfl : x = a.start v := by
      have hnext : a.image v = a.start v + 1 := by simp [image, hsome]
      omega
    exact .inl (a.start_mem_places.mpr ⟨hv, hsome⟩)

theorem withdraw_expand {c : Command} (hv : v < body.length) (rest : Body) :
    Body.withdraw (a.places body) (a.start v) [] (a.expand c v ++ rest) =
      c :: Body.withdraw (a.places body) (a.start (v + 1)) [] rest := by
  have hmem : a.start v ∈ a.places body ↔ _ := a.start_mem_places
  have himage : a.image v ∉ a.places body := a.image_not_mem_places
  rw [start_succ]
  unfold image at himage ⊢
  unfold expand
  cases hset : a.havocSet? v with
  | none =>
    simp only [hset, Option.isSome_none, Bool.false_eq_true, if_false, and_false, iff_false,
      Nat.add_zero] at hmem himage ⊢
    simp [Body.withdraw, hmem]
  | some vars =>
    simp only [hset, Option.isSome_some, if_true, and_true, iff_true_intro hv, iff_true]
      at hmem himage ⊢
    simp [Body.withdraw, hmem, himage]

/-- The labels go back to the command they were taken from. -/
theorem withdraw_spliced (body : Body) :
    Body.withdraw (a.places body) 0 [] (a.spliced body) = body := by
  -- From a command on, the rest of the new body gives the rest of the old one back.
  have hrest : ∀ (cs : Body) (v : Nat), v + cs.length = body.length →
      Body.withdraw (a.places body) (a.start v) []
        ((cs.zipIdx v).flatMap fun p => a.expand p.1 p.2) = cs := by
    intro cs
    induction cs with
    | nil => exact fun _ _ => rfl
    | cons c cs ih =>
      intro v hlen
      rw [length_cons] at hlen
      rw [zipIdx_cons, flatMap_cons, a.withdraw_expand (by omega), ih (v + 1) (by omega)]
  exact hrest body 0 (Nat.zero_add _)

end LoopAnalysis

/-- The body is the old one with commands put in that forget, and the graph is the old one
    with the edges these need. -/
structure Havocked.Splices (h : Havocked) (body : Body) (g : FlowGraph) (a : LoopAnalysis) :
    Prop where
  inserted : h.inserted = (a.places body).length
  length : h.body.length = body.length + h.inserted
  havoc : ∀ x ∈ a.places body, ∃ vars, (h.body[x]?).map (·.action) = some (.havoc vars)
  command : ∀ v c, body[v]? = some c → (h.body[a.image v]?).map (·.action) = some c.action
  /-- Without the commands that were put in, the body is the old one. -/
  restored : h.body.withdraw (a.places body) 0 [] = body
  size : h.graph.size = h.body.length
  entry : h.graph.entry = g.entry
  /-- Edges lead from what was put in to the command after it, and where they led before. -/
  edges : ∀ x y, y ∈ h.graph.successors x ↔
    (∃ v, a.start v ∈ a.places body ∧ x = a.start v ∧ y = a.image v) ∨
      ∃ u v, v ∈ g.successors u ∧ x = a.image u ∧ y = a.start v
  /-- The edges from an old command are in their old order. -/
  order : ∀ v < body.length, h.graph.successors (a.image v) = (g.successors v).map a.start

namespace FlowGraph

variable {body : Body} {g g' : FlowGraph} {s : Scope} {a : LoopAnalysis}

theorem inserted_insertHavocs {h : Havocked} (hok : g.insertHavocs body s = .ok h) :
    h.inserted = (g.analyseLoops body s).inserted body := by
  unfold insertHavocs at hok
  dsimp only at hok
  split at hok
  · cases hok
    rfl
  · rcases bind_eq_ok_iff.mp hok with ⟨_, _, heq⟩
    cases heq
    rfl

section Edges

variable (hg : ofBody body = .ok g) (hg' : ofBody (a.spliced body) = .ok g')
include hg hg'

theorem successors_image_spliced {v : Nat} (hv : v < body.length) :
    g'.successors (a.image v) = (g.successors v).map a.start := by
  have hX : ofBody (a.expansion body).result = .ok g' := a.result_expansion body ▸ hg'
  have hback : (a.expansion body).back = [] := rfl
  rw [← a.image_expansion hv, Body.Expansion.successors_image_eq hg hX hv, hback,
    if_neg (by simp), append_nil]
  refine map_congr_left fun w hw => a.start_expansion ?_
  exact Nat.le_of_lt (size_ofBody hg ▸ lt_size_of_mem_successors hw)

omit hg in
theorem successors_start_spliced {v : Nat} (hv : a.start v ∈ a.places body) :
    g'.successors (a.start v) = [a.image v] := by
  have hX : ofBody (a.expansion body).result = .ok g' := a.result_expansion body ▸ hg'
  rcases a.start_mem_places.mp hv with ⟨hlt, hsome⟩
  have hstart := a.start_expansion (Nat.le_of_lt hlt)
  have himage := a.image_expansion hlt
  have hnext : a.start v + 1 = a.image v := by simp [LoopAnalysis.image, hsome]
  rw [Body.Expansion.successors_of_lt_image hX hlt (Nat.le_of_eq hstart) (by omega), hnext]

theorem mem_successors_spliced {x y : Nat} : y ∈ g'.successors x ↔
    (∃ v, a.start v ∈ a.places body ∧ x = a.start v ∧ y = a.image v) ∨
      ∃ u v, v ∈ g.successors u ∧ x = a.image u ∧ y = a.start v := by
  constructor
  · intro hy
    have hx : x < a.start body.length := by
      rw [← a.length_spliced, ← size_ofBody hg']
      exact lt_size_of_edge hy
    rcases a.mem_places_or_image hx with hx | ⟨u, hu, rfl⟩
    · obtain ⟨v, _, rfl⟩ := mem_map.mp hx
      rw [successors_start_spliced hg' hx, mem_singleton] at hy
      exact .inl ⟨v, hx, rfl, hy⟩
    · rw [successors_image_spliced hg hg' hu] at hy
      obtain ⟨v, hv, rfl⟩ := mem_map.mp hy
      exact .inr ⟨u, v, hv, rfl, rfl⟩
  · rintro (⟨v, hv, rfl, rfl⟩ | ⟨u, v, hv, rfl, rfl⟩)
    · rw [successors_start_spliced hg' hv]
      exact mem_singleton_self _
    · rw [successors_image_spliced hg hg' (size_ofBody hg ▸ lt_size_of_edge hv)]
      exact mem_map_of_mem hv

theorem entry_eq_spliced : g'.entry = g.entry := by
  rw [entry_ofBody hg', entry_ofBody hg, firstEntry, firstEntry, a.length_spliced, a.start_eq]
  cases body <;> simp

end Edges

end FlowGraph

/-- Whenever a body has a graph, making its loops forget what they write succeeds and
    splices commands into body and graph, and if the entry reaches no cycle, both stay as
    they are. -/
theorem havocs_spliced (body : Body) (g : FlowGraph) (s : Scope)
    (hg : FlowGraph.ofBody body = .ok g) :
    ∃ h, g.insertHavocs body s = .ok h ∧ h.Splices body g (g.analyseLoops body s) ∧
      ((∀ v, g.Live v → ¬ Relation.TransGen (fun u v => v ∈ g.successors u) v v) →
        h.body = body ∧ h.graph = g ∧ h.inserted = 0) := by
  rcases FlowGraph.insertHavocs_eq_ok hg s with ⟨h, hok, hbody, hgraph⟩
  have hinserted := FlowGraph.inserted_insertHavocs hok
  have he : ∀ e, g.entry = some e → e < g.size := fun _ => FlowGraph.entry_lt_size hg
  generalize ha : g.analyseLoops body s = a at hbody hinserted
  have hg' : FlowGraph.ofBody (a.spliced body) = .ok h.graph := hbody ▸ hgraph
  refine ⟨h, hok, ?_, fun hacyclic => ?_⟩
  · exact
      { inserted := hinserted.trans a.length_places.symm
        length := by rw [hbody, a.length_spliced, a.start_eq, hinserted]; rfl
        havoc := fun x hx => by
          obtain ⟨v, hv, rfl⟩ := mem_map.mp hx
          rcases mem_filter.mp hv with ⟨hlt, hsome⟩
          obtain ⟨vars, hvars⟩ := Option.isSome_iff_exists.mp hsome
          rw [hbody]
          exact ⟨_, a.getElem?_start (getElem?_eq_getElem (mem_range.mp hlt)) hvars⟩
        command := fun v c hc => hbody ▸ a.getElem?_image hc
        restored := hbody ▸ a.withdraw_spliced body
        size := FlowGraph.size_ofBody hgraph
        entry := FlowGraph.entry_eq_spliced hg hg'
        edges := fun x y => FlowGraph.mem_successors_spliced hg hg'
        order := fun v hv => FlowGraph.successors_image_spliced hg hg' hv }
  · have hzero : a.inserted body = 0 := by
      refine length_eq_zero_iff.mpr (filter_eq_nil_iff.mpr fun v _ hsome => ?_)
      obtain ⟨vars, hvars⟩ := Option.isSome_iff_exists.mp hsome
      rcases FlowGraph.cycle_of_havocSet? he (ha ▸ hvars) with ⟨hlive, hcycle⟩
      exact hacyclic v hlive hcycle
    rw [FlowGraph.spliced_eq_self hzero] at hbody hg'
    exact ⟨hbody, Except.ok.inj (hg'.symm.trans hg), hinserted.trans hzero⟩

/-- A loop that can be left, with the way out tried first. -/
def leavingBody : Body :=
  [{ labels := ["top"], action := .havoc ["x"] }, { action := .goto ["out", "top"] },
    { labels := ["out"], action := .havoc ["y"] }]

def leavingGraph : FlowGraph :=
  .ofEdges 3 (some 0) [(0, 1), (1, 2), (1, 0)]

theorem havocs_spliced_leaving : FlowGraph.ofBody leavingBody = .ok leavingGraph ∧
    ∃ h, leavingGraph.insertHavocs leavingBody {} = .ok h ∧ h.inserted = 1 ∧
      h.graph.successors 2 = [3, 0] ∧ h.body.withdraw [0] 0 [] = leavingBody := by
  have hg : FlowGraph.ofBody leavingBody = .ok leavingGraph := rfl
  rcases havocs_spliced leavingBody leavingGraph {} hg with ⟨h, hok, hsplices, _⟩
  have hplaces : (leavingGraph.analyseLoops leavingBody {}).places leavingBody = [0] := by decide
  refine ⟨hg, h, hok, by rw [hsplices.inserted, hplaces]; rfl, ?_, ?_⟩
  · exact hsplices.order 1 (by decide)
  · exact hplaces ▸ hsplices.restored

end Vouch
