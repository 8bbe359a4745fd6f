import Vouch.Proofs.Contract.Agreement
import Vouch.Proofs.Flow.Expansion

/-!
# A Contract Is Checked at the Exits

Putting a contract into the body of a routine moves everything: the preconditions come
first, so each command is further back, jumps to the outside become jumps to the
postconditions, and the last command, which used to lead nowhere, leads there too.

## Main definitions

* `FlowGraph.onward`: Where control goes from a node.
* `Machine.Execution`: Executions, which may end outside.
* `Machine.Wraps`: The steps of a body with conditions before and after it.
* `Machine.Guarded`: The executions of such a body.

## Theorems

* `inlined_executions`: The new executions are the old ones, guarded.
-/

namespace Vouch

open List

section Contract

/-- The label of the block of postconditions, if there are any. -/
def Procedure.exit? (p : Procedure) : Option String :=
  if p.ensures.isEmpty then none else some exitLabel

/-- Send a jump that leaves the routine to the exit, if there is one. -/
def Command.leave (exit : Option String) (c : Command) : Command :=
  if exit.isSome then c.toExit else c

theorem Procedure.eq_exitLabel {p : Procedure} : ∀ x ∈ p.exit?, x = exitLabel := by
  unfold exit?
  split <;> simp

namespace Command

variable {exit : Option String} {c : Command}

theorem leave_none : leave none = id := rfl

theorem labels_leave (exit : Option String) (c : Command) : (c.leave exit).labels = c.labels := by
  unfold leave toExit
  split
  · split <;> rfl
  · rfl

theorem leave_eq_self (exit : Option String) (h : c.action.jump? = none) : c.leave exit = c := by
  unfold leave toExit
  split
  · split
    · next heq =>
      rw [heq] at h
      cases h
    · rfl
  · rfl

theorem jump?_leave (hexit : ∀ x ∈ exit, x = exitLabel) (c : Command) :
    (c.leave exit).action.jump? = c.action.jump?.map (leaving exit) := by
  cases exit with
  | none => simp [leave_none]
  | some x =>
    obtain rfl := hexit x rfl
    unfold leave toExit leaving Action.jump?
    cases hact : c.action with
    | goto names => cases names <;> simp [hact]
    | _ => simp [hact]

theorem leave_ne_call (exit : Option String) (h : ∀ site, c.action ≠ .call site) :
    ∀ site, (c.leave exit).action ≠ .call site := by
  unfold leave toExit
  split
  · split
    · simp
    · exact h
  · exact h

theorem Becomes.leave (hexit : ∀ x ∈ exit, x = exitLabel) {ds : List Command}
    (h : Becomes none c ds) : Becomes exit c (ds.map (Command.leave exit)) := by
  induction h with
  | last hlabels hjump =>
    rw [leaving_none, Option.map_id_fun, id] at hjump
    exact .last ((labels_leave exit _).trans hlabels) ((jump?_leave hexit _).trans (by rw [hjump]))
  | before hlabels hjump _ ih =>
    refine .before ((labels_leave exit _).trans hlabels) ?_ ih
    rw [jump?_leave hexit, hjump, Option.map_none]

end Command

theorem Routine.code_eq (r : Routine) (p : Procedure) :
    r.code p = r.body.map (Command.leave p.exit?) := by
  unfold code Procedure.exit?
  split
  · rw [Command.leave_none, map_id]
  · rfl

theorem Routine.eq_of_inlineContract {r r' : Routine} {p : Procedure}
    (h : r.inlineContract p = .ok r') : r' = { r with
      body := p.requires.map (fun e => Command.assume (e.subst (p.formalSubst r))) ++
        (r.body.map (Command.leave p.exit?) ++
          exitBlock (p.ensures.map (Expr.subst (p.formalSubst r)))) } := by
  rw [← code_eq, ← append_assoc]
  exact (inlineContract_eq_ok_iff.mp h).2

theorem Routine.ending_exitBlock (p : Procedure) (f : Expr → Expr) :
    Body.Ending p.exit? (exitBlock (p.ensures.map f)) := by
  unfold Procedure.exit? exitBlock
  cases p.ensures with
  | nil => exact .empty
  | cons e es =>
    refine .block rfl (fun d hd => ?_) (fun d hd => ?_)
    · obtain ⟨_, _, rfl⟩ := mem_map.mp hd
      rfl
    · rcases mem_cons.mp hd with rfl | hd
      · rfl
      · obtain ⟨_, _, rfl⟩ := mem_map.mp hd
        rfl

theorem Routine.exitBlock_ne_call (posts : List Expr) :
    ∀ d ∈ exitBlock posts, ∀ site, d.action ≠ .call site := by
  unfold exitBlock
  cases posts with
  | nil => simp
  | cons e es =>
    intro d hd
    rcases mem_cons.mp hd with rfl | hd
    · simp [Command.labelled, Command.assert, Command.unlabelled]
    · obtain ⟨_, _, rfl⟩ := mem_map.mp hd
      simp [Command.assert, Command.unlabelled]

end Contract

section Onward

namespace FlowGraph

/-- Where control goes from a node. Without a successor it leaves, and then it is at the
    place after the last. -/
def onward (g : FlowGraph) (v : Nat) : List Nat :=
  if g.successors v = [] then [g.size] else g.successors v

theorem le_size_of_mem_onward {g : FlowGraph} {v y : Nat} (hy : y ∈ g.onward v) : y ≤ g.size := by
  unfold onward at hy
  split at hy
  · exact Nat.le_of_eq (mem_singleton.mp hy)
  · exact Nat.le_of_lt (lt_size_of_mem_successors hy)

variable {body : Body} {g : FlowGraph} (hg : ofBody body = .ok g) {v : Nat} {c : Command}
  (hc : body[v]? = some c)
include hg hc

theorem onward_of_not_jump (hjump : c.action.jump? = none) : g.onward v = [v + 1] := by
  have hv := (List.getElem?_eq_some_iff.mp hc).1
  rw [onward, successors_of_not_jump hg hc hjump, size_ofBody hg]
  by_cases hlast : v + 1 < body.length
  · simp [hlast]
  · simp only [hlast, if_false, if_true]
    rw [show body.length = v + 1 by omega]

theorem length_mem_onward_iff : body.length ∈ g.onward v ↔
    c.action = .goto [] ∨ c.action.jump? = none ∧ v + 1 = body.length := by
  cases hjump : c.action.jump? with
  | none =>
    have hne : c.action ≠ .goto [] := fun h => by simp [h, Action.jump?] at hjump
    rw [onward_of_not_jump hg hc hjump, mem_singleton]
    simp [hne, eq_comm]
  | some names =>
    rcases ofBody_eq_ok_iff.mp hg with ⟨labels, hlabels, _⟩
    have hsucc := (successors_of_jump hg hc hlabels hjump).1
    have hact : c.action = .goto names := by
      unfold Action.jump? at hjump
      split at hjump
      · next h => rw [h, Option.some.inj hjump]
      · cases hjump
    cases names with
    | nil => simp [hact, onward, hsucc, targets, size_ofBody hg]
    | cons x names =>
      have hne : g.successors v ≠ [] :=
        hsucc ▸ ne_nil_of_mem (mem_targets.mpr (mem_map_of_mem mem_cons_self))
      have hout : body.length ∉ g.successors v := fun hmem => by
        have hlt := lt_size_of_mem_successors hmem
        rw [size_ofBody hg] at hlt
        omega
      simp [hact, onward, hne, hout]

end FlowGraph

theorem Body.Expansion.onward_image {body : Body} {X : Body.Expansion body} {g g' : FlowGraph}
    (hg : FlowGraph.ofBody body = .ok g) (hg' : FlowGraph.ofBody X.result = .ok g') {v : Nat}
    (hv : v < body.length) : g'.onward (X.image v) = (g.onward v).map X.start := by
  have hsucc := successors_image_eq hg hg' hv
  have hsize : g'.size = X.start body.length + X.back.length := by
    rw [FlowGraph.size_ofBody hg', length_result]
  unfold FlowGraph.onward
  by_cases hnil : g.successors v = []
  · by_cases hback : X.back = []
    · simp [hsucc, hnil, hback, hsize, FlowGraph.size_ofBody hg]
    · simp [hsucc, hnil, hback, FlowGraph.size_ofBody hg]
  · simp [hsucc, hnil]

end Onward

namespace Machine

variable {s : Scope} (M : Machine s) (stop : Bool)

section Executions

/-- The command at a place leads from one state to another, and control to another
    place. -/
def Goes (body : Body) (g : FlowGraph) (p q : Nat × M.St) : Prop :=
  ∃ c, body[p.1]? = some c ∧ M.Does stop c.action p.2 q.2 ∧ q.1 ∈ g.onward p.1

/-- Executions of a body that begin in a state, as the places passed with the states
    arrived in, the latest first. They may end outside. -/
inductive Execution (body : Body) (g : FlowGraph) (a : M.St) : List (Nat × M.St) → Prop where
  | start : Execution body g a [(0, a)]
  | step {p p' : Nat × M.St} {q : List (Nat × M.St)} : Execution body g a (p :: q) →
      M.Goes stop body g p p' → Execution body g a (p' :: p :: q)

variable {M stop} {body : Body} {g : FlowGraph} {a : M.St} {q : List (Nat × M.St)}

theorem Execution.exists_cons (h : M.Execution stop body g a q) : ∃ v b q', q = (v, b) :: q' := by
  cases h with
  | start | step => exact ⟨_, _, _, rfl⟩

theorem Execution.le_length (hg : FlowGraph.ofBody body = .ok g)
    (h : M.Execution stop body g a q) : ∀ p ∈ q, p.1 ≤ body.length := by
  induction h with
  | start => simp
  | step _ hgoes ih =>
    rcases hgoes with ⟨_, _, _, hon⟩
    refine forall_mem_cons.mpr ⟨?_, ih⟩
    exact FlowGraph.size_ofBody hg ▸ FlowGraph.le_size_of_mem_onward hon

end Executions

section Guarded

/-- Staying in one state at places in a row, the latest first. -/
def stay {St : Type} (b : St) (x : Nat) : Nat → List (Nat × St)
  | 0 => []
  | i + 1 => (x + i, b) :: stay b x i

/-- An execution of a body from the given place on. -/
def moved {St : Type} (x : Nat) (q : List (Nat × St)) : List (Nat × St) :=
  q.map fun p => (x + p.1, p.2)

/-- The executions of a body with conditions before and after it. The first are passed
    as far as they hold. If they all do there is an execution of the body, and if it has
    left the body, the others follow. -/
inductive Guarded (pres posts : List Expr) (body : Body) (g : FlowGraph) (a : M.St) :
    List (Nat × M.St) → Prop where
  | entering {i : Nat} : i < pres.length → (∀ e ∈ pres.take i, M.Holds e a) →
      Guarded pres posts body g a (stay a 0 (i + 1))
  | inside {q : List (Nat × M.St)} : (∀ e ∈ pres, M.Holds e a) → M.Execution stop body g a q →
      Guarded pres posts body g a (moved pres.length q ++ stay a 0 pres.length)
  | leaving {j : Nat} {b : M.St} {q : List (Nat × M.St)} : (∀ e ∈ pres, M.Holds e a) →
      M.Execution stop body g a ((body.length, b) :: q) → j ≤ posts.length →
      (stop = true → ∀ e ∈ posts.take j, M.Holds e b) →
      Guarded pres posts body g a (stay b (pres.length + body.length) (j + 1) ++
        (moved pres.length q ++ stay a 0 pres.length))

/-- The steps of a body with conditions before and after it. -/
structure Wraps (pres posts : List Expr) (body : Body) (g : FlowGraph) (body' : Body)
    (g' : FlowGraph) : Prop where
  enter : ∀ i e, pres[i]? = some e → ∀ a q,
    M.Goes stop body' g' (i, a) q ↔ M.Holds e a ∧ q = (i + 1, a)
  inside : ∀ v < body.length, ∀ a q, M.Goes stop body' g' (pres.length + v, a) q ↔
    ∃ p, M.Goes stop body g (v, a) p ∧ q = (pres.length + p.1, p.2)
  exit : ∀ j e, posts[j]? = some e → ∀ a q,
    M.Goes stop body' g' (pres.length + body.length + j, a) q ↔
      (stop = true → M.Holds e a) ∧ q = (pres.length + body.length + j + 1, a)
  outside : ∀ a q, ¬ M.Goes stop body' g' (pres.length + body.length + posts.length, a) q

variable {M stop} {pres posts : List Expr} {body body' : Body} {g g' : FlowGraph} {a b : M.St}
  {q : List (Nat × M.St)}

theorem forall_mem_take_succ {es : List Expr} {i : Nat} {P : Expr → Prop} (hi : i < es.length) :
    (∀ e ∈ es.take (i + 1), P e) ↔ (∀ e ∈ es.take i, P e) ∧ P es[i] := by
  rw [take_succ_eq_append_getElem hi, forall_mem_append]
  simp

namespace Wraps

variable (h : M.Wraps stop pres posts body g body' g')
include h

theorem guarded (hg : FlowGraph.ofBody body = .ok g) (hq : M.Execution stop body' g' a q) :
    M.Guarded stop pres posts body g a q := by
  induction hq with
  | start =>
    cases pres with
    | nil => exact .inside (by simp) .start
    | cons e es => exact .entering (i := 0) (by simp) (by simp)
  | @step p p' q _ hgoes ih =>
    generalize hpq : p :: q = q' at ih
    cases ih with
    | @entering i hi hpre =>
      obtain ⟨rfl, rfl⟩ := List.cons.inj hpq
      rw [Nat.zero_add] at hgoes
      obtain ⟨hholds, rfl⟩ := (h.enter i _ (getElem?_eq_getElem hi) a p').mp hgoes
      have hpre' := (forall_mem_take_succ hi).mpr ⟨hpre, hholds⟩
      by_cases hlast : i + 1 < pres.length
      · have hnext : M.Guarded stop pres posts body g a _ := .entering hlast hpre'
        rwa [stay, Nat.zero_add] at hnext
      · -- The last condition leads to the body.
        rw [take_of_length_le (by omega)] at hpre'
        have hnext : M.Guarded stop pres posts body g a _ := .inside hpre' .start
        rwa [← show i + 1 = pres.length by omega] at hnext
    | @inside q₀ hpre hq₀ =>
      rcases hq₀.exists_cons with ⟨v, b, q₁, rfl⟩
      obtain ⟨rfl, rfl⟩ := List.cons.inj hpq
      have hle : v ≤ body.length := hq₀.le_length hg _ mem_cons_self
      rcases Nat.lt_or_eq_of_le hle with hv | rfl
      · obtain ⟨p, hp, rfl⟩ := (h.inside v hv b p').mp hgoes
        exact .inside hpre (.step hq₀ hp)
      · cases posts with
        | nil => exact absurd hgoes (h.outside b p')
        | cons e es =>
          obtain ⟨hholds, rfl⟩ := (h.exit 0 e rfl b p').mp hgoes
          exact .leaving (j := 1) hpre hq₀ (by simp) (by simpa using hholds)
    | @leaving j b q₀ hpre hq₀ hj hpost =>
      obtain ⟨rfl, rfl⟩ := List.cons.inj hpq
      rcases Nat.lt_or_eq_of_le hj with hj | rfl
      · obtain ⟨hholds, rfl⟩ := (h.exit j _ (getElem?_eq_getElem hj) b p').mp hgoes
        exact .leaving (j := j + 1) hpre hq₀ hj fun hstop =>
          (forall_mem_take_succ hj).mpr ⟨hpost hstop, hholds hstop⟩
      · exact absurd hgoes (h.outside b p')

theorem execution_entering : ∀ {i : Nat}, i ≤ pres.length → (∀ e ∈ pres.take i, M.Holds e a) →
    M.Execution stop body' g' a (stay a 0 (i + 1))
  | 0, _, _ => .start
  | i + 1, hi, hpre => by
    rcases (forall_mem_take_succ hi).mp hpre with ⟨hpre, hholds⟩
    have hgoes : M.Goes stop body' g' (0 + i, a) (0 + (i + 1), a) := by
      rw [Nat.zero_add, Nat.zero_add]
      exact (h.enter i _ (getElem?_eq_getElem hi) a _).mpr ⟨hholds, rfl⟩
    exact .step (execution_entering (Nat.le_of_succ_le hi) hpre) hgoes

theorem execution_inside (hpre : ∀ e ∈ pres, M.Holds e a) (hq : M.Execution stop body g a q) :
    M.Execution stop body' g' a (moved pres.length q ++ stay a 0 pres.length) := by
  induction hq with
  | start =>
    have hstart := h.execution_entering (Nat.le_refl _) (by rwa [take_length])
    rwa [stay, Nat.zero_add] at hstart
  | @step p p' q _ hgoes ih =>
    obtain ⟨c, hc, _⟩ := id hgoes
    have hlt := (List.getElem?_eq_some_iff.mp hc).1
    exact .step ih ((h.inside p.1 hlt p.2 _).mpr ⟨p', hgoes, rfl⟩)

theorem execution_leaving {j : Nat} (hpre : ∀ e ∈ pres, M.Holds e a)
    (hq : M.Execution stop body g a ((body.length, b) :: q)) (hj : j ≤ posts.length)
    (hpost : stop = true → ∀ e ∈ posts.take j, M.Holds e b) :
    M.Execution stop body' g' a (stay b (pres.length + body.length) (j + 1) ++
      (moved pres.length q ++ stay a 0 pres.length)) := by
  induction j with
  | zero => exact h.execution_inside hpre hq
  | succ j ih =>
    have hposts := fun hstop => (forall_mem_take_succ hj).mp (hpost hstop)
    refine .step (ih (Nat.le_of_succ_le hj) fun hstop => (hposts hstop).1) ?_
    exact (h.exit j _ (getElem?_eq_getElem hj) b _).mpr ⟨fun hstop => (hposts hstop).2, rfl⟩

theorem execution_iff (hg : FlowGraph.ofBody body = .ok g) :
    M.Execution stop body' g' a q ↔ M.Guarded stop pres posts body g a q := by
  refine ⟨h.guarded hg, fun hq => ?_⟩
  cases hq with
  | entering hi hpre => exact h.execution_entering (Nat.le_of_lt hi) hpre
  | inside hpre hq => exact h.execution_inside hpre hq
  | leaving hpre hq hj hpost => exact h.execution_leaving hpre hq hj hpost

theorem arrives_iff {j : Nat} (hg : FlowGraph.ofBody body = .ok g) (hj : j ≤ posts.length) :
    (∃ q, M.Execution stop body' g' a ((pres.length + body.length + j, b) :: q)) ↔
      (∀ e ∈ pres, M.Holds e a) ∧ (∃ q, M.Execution stop body g a ((body.length, b) :: q)) ∧
        (stop = true → ∀ e ∈ posts.take j, M.Holds e b) := by
  constructor
  · rintro ⟨q, hq⟩
    have hguarded := h.guarded hg hq
    generalize hlist : (pres.length + body.length + j, b) :: q = q' at hguarded
    cases hguarded with
    | entering hi _ =>
      have hplace := congrArg Prod.fst (List.cons.inj hlist).1
      dsimp only at hplace
      omega
    | inside hpre hq₀ =>
      rcases hq₀.exists_cons with ⟨v, b', q₀, rfl⟩
      have hle : v ≤ body.length := hq₀.le_length hg _ mem_cons_self
      obtain ⟨hplace, rfl⟩ := Prod.mk.inj (List.cons.inj hlist).1
      dsimp only at hplace
      obtain rfl : v = body.length := by omega
      obtain rfl : j = 0 := by omega
      exact ⟨hpre, ⟨q₀, hq₀⟩, by simp⟩
    | @leaving j' b' q₀ hpre hq₀ _ hpost =>
      obtain ⟨hplace, rfl⟩ := Prod.mk.inj (List.cons.inj hlist).1
      obtain rfl : j = j' := by omega
      exact ⟨hpre, ⟨q₀, hq₀⟩, hpost⟩
  · rintro ⟨hpre, ⟨q, hq⟩, hpost⟩
    exact ⟨_, h.execution_leaving hpre hq hj hpost⟩

end Wraps

end Guarded

end Machine

section Inlining

variable {r : Routine} {p : Procedure}

/-- Putting a contract into a body, as a replacement of its commands. -/
def Routine.guarding (r : Routine) (p : Procedure) : Body.Expansion r.body where
  front := p.requires.map fun e => Command.assume (e.subst (p.formalSubst r))
  pieces := r.body.map fun c => [c.leave p.exit?]
  back := exitBlock (p.ensures.map (Expr.subst (p.formalSubst r)))
  exit := p.exit?
  front_labels := by simp [Command.assume, Command.unlabelled]
  front_jump := by simp [Command.assume, Command.unlabelled, Action.jump?]
  becomes := by
    rw [forall₂_map_right_iff, forall₂_same]
    exact fun c _ => .last (Command.labels_leave _ c) (Command.jump?_leave Procedure.eq_exitLabel c)
  ending := Routine.ending_exitBlock p _

theorem Routine.start_guarding {v : Nat} (hv : v ≤ r.body.length) :
    (r.guarding p).start v = p.requires.length + v := by
  simp [Body.Expansion.start, guarding, ← map_take, Function.comp_def, hv]

theorem Routine.image_guarding {v : Nat} (hv : v < r.body.length) :
    (r.guarding p).image v = p.requires.length + v := by
  rw [Body.Expansion.image, start_guarding hv]
  omega

theorem Routine.result_guarding : (r.guarding p).result =
    (p.requires.map fun e => Command.assume (e.subst (p.formalSubst r))) ++ r.code p ++
      exitBlock (p.ensures.map (Expr.subst (p.formalSubst r))) := by
  rw [code_eq, append_assoc, Body.Expansion.result, map_eq_flatMap (l := r.body),
    flatMap_def]
  rfl

theorem Routine.length_guarding : (r.guarding p).result.length =
    p.requires.length + r.body.length + p.ensures.length := by
  have hback : (exitBlock (p.ensures.map (Expr.subst (p.formalSubst r)))).length =
      p.ensures.length := by
    unfold exitBlock
    cases p.ensures <;> simp
  rw [Body.Expansion.length_result, start_guarding (Nat.le_refl _)]
  exact congrArg _ hback

theorem Routine.getElem?_exitBlock {posts : List Expr} {j : Nat} {e : Expr}
    (he : posts[j]? = some e) : ∃ c, (exitBlock posts)[j]? = some c ∧ c.action = .assert e := by
  cases posts with
  | nil => cases he
  | cons post posts =>
    cases j with
    | zero =>
      cases he
      exact ⟨_, rfl, rfl⟩
    | succ j =>
      have he : posts[j]? = some e := he
      exact ⟨Command.assert e, by simp [exitBlock, he], rfl⟩

namespace Machine

variable {s : Scope} {M : Machine s} {stop : Bool} {a : M.St} {q : Nat × M.St}

theorem does_leave {c : Command} {b : M.St} (exit : Option String) :
    M.Does stop (c.leave exit).action a b ↔ M.Does stop c.action a b := by
  unfold Command.leave Command.toExit
  split
  · split
    · next h => rw [h]; rfl
    · rfl
  · rfl

theorem goes_of_not_jump {body : Body} {g : FlowGraph} (hg : FlowGraph.ofBody body = .ok g)
    {v : Nat} {c : Command} (hc : body[v]? = some c) (hjump : c.action.jump? = none) :
    M.Goes stop body g (v, a) q ↔ M.Does stop c.action a q.2 ∧ q.1 = v + 1 := by
  simp [Goes, hc, FlowGraph.onward_of_not_jump hg hc hjump]

theorem wraps_guarding (M : Machine s) (stop : Bool) {g g' : FlowGraph}
    (hg : FlowGraph.ofBody r.body = .ok g)
    (hg' : FlowGraph.ofBody (r.guarding p).result = .ok g') :
    M.Wraps stop (p.requires.map (Expr.subst (p.formalSubst r)))
      (p.ensures.map (Expr.subst (p.formalSubst r))) r.body g (r.guarding p).result g' := by
  have hlength := Routine.start_guarding (r := r) (p := p) (Nat.le_refl _)
  -- The preconditions, the old commands, the postconditions, and what comes after them.
  refine ⟨fun i e he a q => ?_, fun v hv a q => ?_, fun j e he a q => ?_, fun a q => ?_⟩
  · have hi : i < (r.guarding p).front.length := by
      simpa [Routine.guarding] using (List.getElem?_eq_some_iff.mp he).1
    have hc : (r.guarding p).result[i]? = some (.assume e) := by
      rw [Body.Expansion.getElem?_front hi]
      simpa [Routine.guarding, Function.comp_def] using congrArg (Option.map Command.assume) he
    rw [goes_of_not_jump hg' hc rfl]
    exact ⟨fun h => ⟨h.1.2, Prod.ext h.2 h.1.1⟩, fun h => h.2 ▸ ⟨⟨rfl, h.1⟩, rfl⟩⟩
  · rw [length_map]
    have hc : (r.guarding p).result[p.requires.length + v]? = some (r.body[v].leave p.exit?) := by
      have hpiece : (r.guarding p).pieces[v]? = some [r.body[v].leave p.exit?] := by
        simp [Routine.guarding, hv]
      rw [← Routine.start_guarding (Nat.le_of_lt hv)]
      exact Body.Expansion.getElem?_result hpiece (i := 0) (by simp)
    have hon := Body.Expansion.onward_image hg hg' hv
    rw [Routine.image_guarding hv] at hon
    have hstart : ∀ w ∈ g.onward v, (r.guarding p).start w = p.requires.length + w := fun w hw =>
      Routine.start_guarding (FlowGraph.size_ofBody hg ▸ FlowGraph.le_size_of_mem_onward hw)
    constructor
    · rintro ⟨c, hc', hdoes, hq⟩
      obtain rfl := Option.some.inj (hc.symm.trans hc')
      rw [hon] at hq
      obtain ⟨w, hw, hq⟩ := mem_map.mp hq
      refine ⟨(w, q.2), ⟨_, getElem?_eq_getElem hv, (does_leave _).mp hdoes, hw⟩, ?_⟩
      exact Prod.ext (hq.symm.trans (hstart w hw)) rfl
    · rintro ⟨⟨w, b⟩, ⟨c, hc', hdoes, hw⟩, rfl⟩
      obtain rfl := Option.some.inj ((getElem?_eq_getElem hv).symm.trans hc')
      exact ⟨_, hc, (does_leave _).mpr hdoes, hon ▸ mem_map.mpr ⟨w, hw, hstart w hw⟩⟩
  · rw [length_map, ← hlength]
    rcases Routine.getElem?_exitBlock he with ⟨c, hc, hact⟩
    have hc : (r.guarding p).result[(r.guarding p).start r.body.length + j]? = some c :=
      (Body.Expansion.getElem?_back j).trans hc
    rw [goes_of_not_jump hg' hc (by rw [hact]; rfl), hact]
    exact ⟨fun h => ⟨h.1.2, Prod.ext h.2 h.1.1⟩, fun h => h.2 ▸ ⟨⟨rfl, h.1⟩, rfl⟩⟩
  · rintro ⟨c, hc, _⟩
    have hlt := (List.getElem?_eq_some_iff.mp hc).1
    rw [Routine.length_guarding] at hlt
    simp only [length_map] at hlt
    omega

end Machine

/-- A contract that fits a routine can be put into its body, and the new body has a graph.
    Its executions are those of the old body, begun where the preconditions hold, and if
    they leave, by a jump without a label or after the last command, the postconditions
    follow in order. So each postcondition, and the end, is arrived at in the states in
    which the old body is left and the postconditions before it have been passed. -/
theorem inlined_executions (r : Routine) (p : Procedure) (g : FlowGraph)
    (hg : FlowGraph.ofBody r.body = .ok g) (hexit : exitLabel ∉ r.body.flatMap (·.labels))
    (harity : p.Arity r.args r.results) :
    ∃ r' g', r.inlineContract p = .ok r' ∧ FlowGraph.ofBody r'.body = .ok g' ∧
      r'.body.length = p.requires.length + r.body.length + p.ensures.length ∧
      (∀ v c, r.body[v]? = some c → (r.body.length ∈ g.onward v ↔
        c.action = .goto [] ∨ c.action.jump? = none ∧ v + 1 = r.body.length)) ∧
      ∀ (s : Scope) (M : Machine s) (stop : Bool) (a : M.St),
        (∀ q, M.Execution stop r'.body g' a q ↔
          M.Guarded stop (p.requires.map (Expr.subst (p.formalSubst r)))
            (p.ensures.map (Expr.subst (p.formalSubst r))) r.body g a q) ∧
        ∀ b j, j ≤ p.ensures.length →
          ((∃ q, M.Execution stop r'.body g' a ((p.requires.length + r.body.length + j, b) :: q)) ↔
            (∀ e ∈ p.requires, M.Holds (e.subst (p.formalSubst r)) a) ∧
            (∃ q, M.Execution stop r.body g a ((r.body.length, b) :: q)) ∧
            (stop = true → ∀ e ∈ p.ensures.take j, M.Holds (e.subst (p.formalSubst r)) b)) := by
  obtain ⟨g', hg'⟩ := Body.Expansion.exists_ofBody (X := r.guarding p) hg fun x hx =>
    Procedure.eq_exitLabel x hx ▸ hexit
  refine ⟨{ r with body := (r.guarding p).result }, g', ?_, hg', Routine.length_guarding,
    fun v c hc => FlowGraph.length_mem_onward_iff hg hc, fun s M stop a => ?_⟩
  · rw [Routine.result_guarding]
    exact Routine.inlineContract_eq_ok_iff.mpr ⟨fun _ => harity, rfl⟩
  · have hwraps := M.wraps_guarding stop hg hg'
    refine ⟨fun q => hwraps.execution_iff hg, fun b j hj => ?_⟩
    have harrives := hwraps.arrives_iff (a := a) (b := b) (j := j) hg (by rwa [length_map])
    simpa [length_map, ← map_take] using harrives

/-- The contract of a routine that returns a number that is not negative. -/
def roundUp : Procedure where
  name := "roundUp"
  args := [⟨"arg", .int⟩]
  results := [⟨"res", .int⟩]
  requires := [.le (.int (-100)) (.var "arg")]
  ensures := [.le (.int 0) (.var "res")]

/-- Its code, with a jump to the outside. -/
def roundUpCode : Routine where
  name := "roundUp"
  args := [⟨"x", .int⟩]
  results := [⟨"y", .int⟩]
  body := [{ action := .assign [("y", .var "x")] }, { action := .goto [] }]

def roundUpGraph : FlowGraph :=
  .ofEdges 2 (some 0) [(0, 1)]

theorem inlined_executions_roundUp : ∃ r' g', roundUpCode.inlineContract roundUp = .ok r' ∧
    FlowGraph.ofBody r'.body = .ok g' ∧ r'.body.length = 4 ∧
      ∀ (s : Scope) (M : Machine s) (a b : M.St),
        (∃ q, M.Execution true r'.body g' a ((4, b) :: q)) ↔
          M.Holds (.le (.int (-100)) (.var "x")) a ∧
          (∃ q, M.Execution true roundUpCode.body roundUpGraph a ((2, b) :: q)) ∧
          M.Holds (.le (.int 0) (.var "y")) b := by
  rcases inlined_executions roundUpCode roundUp roundUpGraph rfl (by decide) ⟨rfl, rfl⟩ with
    ⟨r', g', hok, hg', hlen, _, hexecutions⟩
  refine ⟨r', g', hok, hg', hlen, fun s M a b => ?_⟩
  refine ((hexecutions s M true a).2 b 1 (Nat.le_refl 1)).trans ?_
  exact and_congr forall_mem_singleton (and_congr_right' ((forall_prop_of_true rfl).trans
    forall_mem_singleton))

end Inlining

end Vouch
