import Vouch.Proofs.Flow.Expansion
import Vouch.Proofs.Flow.Loops

/-!
# Inserting Keeps the Graph

What stands for a command of a body, after loops were made to forget what they
write, is the command or two commands, of which the first forgets.

## Main definitions

* `LoopAnalysis.start`: Where what stands for a command starts.
* `LoopAnalysis.expansion`: Inserting is one way to replace every command.

## Theorems

* `FlowGraph.insertHavocs_eq_ok`: The new body has a graph.
* `FlowGraph.mem_cut_image`: Edges that close no cycle are still there when the cycles
  of the new graph are cut.
-/

namespace Vouch

open List

namespace LoopAnalysis

variable (a : LoopAnalysis)

/-- Where what stands for a command starts. -/
def start : Nat → Nat
  | 0 => 0
  | v + 1 => start v + if (a.havocSet? v).isSome then 2 else 1

/-- Where the command itself is. -/
def image (v : Nat) : Nat :=
  a.start v + if (a.havocSet? v).isSome then 1 else 0

theorem start_succ (v : Nat) : a.start (v + 1) = a.image v + 1 := by
  unfold image
  rw [start]
  split <;> rfl

theorem start_le_image (v : Nat) : a.start v ≤ a.image v :=
  Nat.le_add_right ..

theorem start_strictMono : StrictMono a.start := by
  refine strictMono_nat_of_lt_succ fun v => ?_
  rw [start_succ]
  exact Nat.lt_succ_of_le (a.start_le_image v)

variable {v : Nat} {body : Body} {c : Command}

theorem start_ne_image : a.start v ≠ a.image v ↔ (a.havocSet? v).isSome := by
  unfold image
  split <;> simp [*]

theorem image_ne_start (hv : (a.havocSet? v).isSome) (n : Nat) : a.image n ≠ a.start v := by
  intro h
  have hnext := a.start_succ n
  rcases Nat.lt_trichotomy n v with hlt | rfl | hgt
  · have hle : a.start (n + 1) ≤ a.start v := a.start_strictMono.monotone hlt
    omega
  · exact a.start_ne_image.mpr hv h.symm
  · have hlt := a.start_strictMono hgt
    have hle := a.start_le_image n
    omega

theorem becomes_expand (c : Command) (v : Nat) : Command.Becomes none c (a.expand c v) := by
  unfold expand
  cases a.havocSet? v with
  | none => exact .last rfl (by simp)
  | some vars => exact .before rfl rfl (.last rfl (by simp))

/-- The body with the commands put in. -/
def spliced (body : Body) : Body :=
  body.zipIdx.flatMap fun p => a.expand p.1 p.2

theorem start_add_length_expand (c : Command) (v : Nat) :
    a.start v + (a.expand c v).length = a.start (v + 1) := by
  unfold expand
  rw [start]
  cases a.havocSet? v <;> simp

/-- Commands put in before others, as one way to replace every command. -/
def expansion (body : Body) : Body.Expansion body where
  front := []
  pieces := body.zipIdx.map fun p => a.expand p.1 p.2
  back := []
  exit := none
  front_labels := by simp
  front_jump := by simp
  becomes := by
    have hmap := forall₂_map_left_iff (R := Command.Becomes none) (f := Prod.fst)
      (l := body.zipIdx) (u := body.zipIdx.map fun p => a.expand p.1 p.2)
    rw [zipIdx_map_fst] at hmap
    rw [hmap, forall₂_map_right_iff, forall₂_same]
    exact fun p _ => a.becomes_expand p.1 p.2
  ending := .empty

@[simp]
theorem result_expansion (body : Body) : (a.expansion body).result = a.spliced body := by
  simp [Body.Expansion.result, expansion, spliced, flatMap_def]

theorem getElem?_pieces (hc : body[v]? = some c) :
    (a.expansion body).pieces[v]? = some (a.expand c v) := by
  simp [expansion, hc]

theorem start_expansion : ∀ {v : Nat}, v ≤ body.length →
    (a.expansion body).start v = a.start v
  | 0, _ => rfl
  | v + 1, hv => by
    have hpiece := a.getElem?_pieces (getElem?_eq_getElem hv)
    rw [Body.Expansion.start_succ hpiece, start_expansion (Nat.le_of_lt hv),
      a.start_add_length_expand]

theorem image_expansion (hv : v < body.length) : (a.expansion body).image v = a.image v := by
  rw [Body.Expansion.image, a.start_expansion hv, start_succ, Nat.add_sub_cancel]

theorem length_spliced (body : Body) : (a.spliced body).length = a.start body.length := by
  rw [← result_expansion, Body.Expansion.length_result, a.start_expansion (Nat.le_refl _)]
  rfl

theorem getElem?_spliced (hc : body[v]? = some c) {i : Nat} (hi : i < (a.expand c v).length) :
    (a.spliced body)[a.start v + i]? = (a.expand c v)[i]? := by
  have h := Body.Expansion.getElem?_result (a.getElem?_pieces hc) hi
  rwa [result_expansion, a.start_expansion (Nat.le_of_lt (List.getElem?_eq_some_iff.mp hc).1)] at h

theorem getElem?_image (hc : body[v]? = some c) :
    ((a.spliced body)[a.image v]?).map (·.action) = some c.action := by
  unfold image
  rw [getElem?_spliced a hc]
  · unfold expand
    cases a.havocSet? v <;> simp
  · unfold expand
    cases a.havocSet? v <;> simp

theorem getElem?_start (hc : body[v]? = some c) {vars : NameSet}
    (hvars : a.havocSet? v = some vars) :
    ((a.spliced body)[a.start v]?).map (·.action) = some (.havoc vars.toList) := by
  have h := getElem?_spliced a hc (i := 0) (by simp [expand, hvars])
  rw [Nat.add_zero] at h
  rw [h]
  simp [expand, hvars]

end LoopAnalysis

namespace FlowGraph

variable {body : Body} {g g' : FlowGraph} {a : LoopAnalysis}

theorem exists_ofBody_spliced (a : LoopAnalysis) (hg : ofBody body = .ok g) :
    ∃ g', ofBody (a.spliced body) = .ok g' := by
  rw [← a.result_expansion]
  refine Body.Expansion.exists_ofBody hg fun x hx => ?_
  simp [LoopAnalysis.expansion] at hx

section Cut

variable (hg : ofBody body = .ok g) (hg' : ofBody (a.spliced body) = .ok g') {e : Nat}
  (hentry : g.entry = some e)
include hg hg' hentry

theorem entry_spliced : g'.entry = some (a.start e) := by
  obtain rfl : e = 0 := by
    rw [entry_ofBody hg, firstEntry] at hentry
    split at hentry <;> simp_all
  have hlt := a.start_strictMono (size_ofBody hg ▸ entry_lt_size hg hentry)
  rw [entry_ofBody hg', firstEntry, a.length_spliced, if_neg (by omega)]
  rfl

theorem mem_cut_image {u v : Nat} (hu : g.Reaches e u) (hv : v ∈ g.successors u)
    (hopen : (u, v) ∉ g.walk.closing) : a.start v ∈ g'.cut.graph.successors (a.image u) := by
  have he := entry_lt_size hg hentry
  have hX : ofBody (a.expansion body).result = .ok g' := a.result_expansion body ▸ hg'
  have h := (Body.Expansion.embedding hg hX).mem_cut_image hentry he
    (fun _ => entry_lt_size hX) hu hv hopen
  have hlt : u < body.length := size_ofBody hg ▸ hu.lt_size he
  have hlt' : v < body.length := size_ofBody hg ▸ lt_size_of_mem_successors hv
  rw [← a.image_expansion hlt, ← a.start_expansion (Nat.le_of_lt hlt')]
  exact h

theorem mem_cut_start {v : Nat} (hv : g.Reaches e v) (hne : a.start v ≠ a.image v) :
    a.image v ∈ g'.cut.graph.successors (a.start v) := by
  have he := entry_lt_size hg hentry
  have hX : ofBody (a.expansion body).result = .ok g' := a.result_expansion body ▸ hg'
  have hlt : v < body.length := size_ofBody hg ▸ hv.lt_size he
  have hstart := a.start_expansion (Nat.le_of_lt hlt)
  have himage := a.image_expansion hlt
  have hnext : a.start v + 1 = a.image v := by
    simp [LoopAnalysis.image, a.start_ne_image.mp hne]
  have hmem : a.start v ∈ (a.expansion body).places v := by
    rw [Body.Expansion.mem_places, hstart, a.start_expansion hlt]
    exact ⟨Nat.le_refl _, a.start_strictMono (Nat.lt_succ_self v)⟩
  refine (Body.Expansion.embedding hg hX).mem_cut_inner hentry he (fun _ => entry_lt_size hX) hv
    hmem (fun heq => hne (heq.trans himage)) ?_
  rw [Body.Expansion.successors_of_lt_image hX hlt (Nat.le_of_eq hstart) (by omega), hnext]
  exact mem_singleton_self _

end Cut

theorem spliced_eq_self (h : a.inserted body = 0) : a.spliced body = body := by
  have hexpand : ∀ p ∈ body.zipIdx, a.expand p.1 p.2 = [p.1] := by
    intro p hp
    have hlt : p.2 < body.length := by simpa using snd_lt_of_mem_zipIdx hp
    have hnone := filter_eq_nil_iff.mp (length_eq_zero_iff.mp h) p.2
      (mem_range.mpr hlt)
    have hnone : a.havocSet? p.2 = none := by simpa using hnone
    rw [LoopAnalysis.expand, hnone]
  rw [LoopAnalysis.spliced, flatMap_congr hexpand, ← map_eq_flatMap]
  exact zipIdx_map_fst 0 body

/-- Labels move to what is put in, so every jump still leads to one. -/
theorem insertHavocs_eq_ok (hg : ofBody body = .ok g) (s : Scope) :
    ∃ h, g.insertHavocs body s = .ok h ∧ h.body = (g.analyseLoops body s).spliced body ∧
      ofBody h.body = .ok h.graph := by
  rcases exists_ofBody_spliced (g.analyseLoops body s) hg with ⟨g', hg'⟩
  refine ⟨⟨(g.analyseLoops body s).spliced body, g', (g.analyseLoops body s).inserted body,
    (g.analyseLoops body s).unreachable⟩, ?_, rfl, hg'⟩
  unfold insertHavocs
  by_cases hzero : (g.analyseLoops body s).inserted body = 0
  · -- The graph is not built again, and need not be.
    rw [spliced_eq_self hzero, hg] at hg'
    cases hg'
    simp only [hzero]
    rfl
  · have hcommands : ofBody (body.zipIdx.flatMap fun p =>
        (g.analyseLoops body s).expand p.1 p.2) = .ok g' := hg'
    simp only [hzero, if_false, hcommands]
    rfl

end FlowGraph

end Vouch
