import Vouch.Flow.Graph
import Vouch.Lang.Frame
import Vouch.Proofs.Lang.Meaning

/-!
# Executions

A state gives every declared variable a value of its type, and that is part of the type
of states, so `havoc` cannot leave it and no statement about executions has to assume
it. An ill-typed assignment has no state to go to.

## Main definitions

* `Machine`: An interpretation, and what calls do.
* `Machine.Trace`: Executions, as the nodes passed with the states arrived in.
* `Machine.Safe`: No execution reaches an assertion that does not hold.
* `Machine.Fails`: Some execution from a node does.

## Theorems

* `Machine.Does.frame`: An action changes what it writes only.
* `Machine.safe_iff_not_fails`: A body is safe if nothing fails from the entry.
-/

namespace Vouch

open List

/-- A value of its type for every declared variable. -/
structure State (I : Interp) (s : Scope) where
  get : Assignment I.Value
  fits : s.Fits I [] get

theorem State.ext {I : Interp} {s : Scope} {a b : State I s} (h : ∀ x, a.get x = b.get x) :
    a = b := by
  obtain ⟨f, _⟩ := a
  obtain ⟨g, _⟩ := b
  have hfg : f = g := funext h
  subst hfg
  rfl

/-- The values after an assignment. All expressions are evaluated before. -/
noncomputable def Interp.assigned (I : Interp) (s : Scope) (pairs : List (String × Expr))
    (st : Assignment I.Value) : Assignment I.Value :=
  pairs.foldl (fun acc p => Function.update acc p.1 (I.value s p.2 [] st)) st

section Assigned

variable {I : Interp} {s : Scope}

theorem foldl_update_of_not_mem {V : Type} {f : String × Expr → V} {x : String} :
    ∀ {pairs : List (String × Expr)} {acc : Assignment V}, x ∉ pairs.map (·.1) →
      pairs.foldl (fun acc p => Function.update acc p.1 (f p)) acc x = acc x
  | [], _, _ => rfl
  | p :: pairs, acc, h => by
    rw [map_cons, mem_cons, not_or] at h
    rw [foldl_cons, foldl_update_of_not_mem h.2, Function.update_of_ne h.1]

variable {pairs : List (String × Expr)} {p : String × Expr}

theorem Interp.assigned_of_not_mem {x : String} (h : x ∉ pairs.map (·.1))
    (st : Assignment I.Value) : I.assigned s pairs st x = st x :=
  foldl_update_of_not_mem h

theorem foldl_update_of_mem {V : Type} {f : String × Expr → V} :
    ∀ {pairs : List (String × Expr)} {acc : Assignment V}, (pairs.map (·.1)).Nodup →
      p ∈ pairs → pairs.foldl (fun acc p => Function.update acc p.1 (f p)) acc p.1 = f p
  | [], _, _, h => by simp at h
  | q :: pairs, acc, hnodup, h => by
    rw [map_cons, nodup_cons] at hnodup
    rw [foldl_cons]
    rcases mem_cons.mp h with rfl | h
    · rw [foldl_update_of_not_mem hnodup.1, Function.update_self]
    · exact foldl_update_of_mem hnodup.2 h

theorem Interp.assigned_of_mem (hnodup : (pairs.map (·.1)).Nodup) (h : p ∈ pairs)
    (st : Assignment I.Value) : I.assigned s pairs st p.1 = I.value s p.2 [] st :=
  foldl_update_of_mem hnodup h

end Assigned

/-- An interpretation, and what calls do. -/
structure Machine (s : Scope) where
  interp : Interp
  calls : Call → State interp s → State interp s → Prop
  /-- A call changes only what its callee may write. -/
  calls_frame : ∀ {site a b}, calls site a b →
    ∀ x, x ∉ s.writes (.unlabelled (.call site)) → b.get x = a.get x

namespace Machine

variable {s : Scope} (M : Machine s)

/-- The machine in which no call returns. -/
def withoutCalls (s : Scope) (I : Interp) : Machine s where
  interp := I
  calls _ _ _ := False
  calls_frame := nofun

/-- The states of a machine. -/
abbrev St := State M.interp s

/-- The boolean expression is true in the state. -/
def Holds (e : Expr) (a : M.St) : Prop :=
  M.interp.Holds (M.interp.value s e [] a.get)

/-- What an action does to a state. With `stop`, an execution ends at an
    assertion that does not hold. -/
def Does (stop : Bool) : Action → M.St → M.St → Prop
  | .assert e, a, b => b = a ∧ (stop = true → M.Holds e a)
  | .assume e, a, b => b = a ∧ M.Holds e a
  | .assign pairs, a, b => b.get = M.interp.assigned s pairs a.get
  | .havoc vars, a, b => ∀ x, x ∉ vars → b.get x = a.get x
  | .call site, a, b => M.calls site a b
  | .goto _, a, b => b = a
  | .skip, a, b => b = a

/-- The action is an assertion that is false in the state. -/
def Refutes : Action → M.St → Prop
  | .assert e, a => ¬ M.Holds e a
  | _, _ => False

/-- Calls keep to what the callee may write. -/
theorem Does.frame {M : Machine s} {stop : Bool} {c : Command} {a b : M.St}
    (h : M.Does stop c.action a b) {x : String} (hx : x ∉ s.writes c) : b.get x = a.get x := by
  cases hact : c.action with
  | assert e | assume e =>
    rw [hact] at h
    rw [h.1]
  | assign pairs =>
    -- The targets of the assignment are what it writes.
    rw [hact] at h
    rw [Scope.writes, hact, NameSet.mem_ofList] at hx
    rw [h, Interp.assigned_of_not_mem hx]
  | havoc vars =>
    rw [hact] at h
    rw [Scope.writes, hact, NameSet.mem_ofList] at hx
    exact h x hx
  | call site =>
    rw [hact] at h
    refine M.calls_frame h x ?_
    rw [Scope.writes, hact] at hx
    exact hx
  | goto targets | skip =>
    rw [hact] at h
    rw [h]

/-- Executions along a graph, as the nodes passed with the states arrived in,
    the latest first. -/
inductive Trace (stop : Bool) (body : Body) (g : FlowGraph) : List (Nat × M.St) → Prop where
  | start {v : Nat} (a : M.St) : g.entry = some v → Trace stop body g [(v, a)]
  | step {u v : Nat} {a b : M.St} {p : List (Nat × M.St)} {c : Command} :
      Trace stop body g ((u, a) :: p) → body[u]? = some c → M.Does stop c.action a b →
      v ∈ g.successors u → Trace stop body g ((v, b) :: (u, a) :: p)

/-- Some execution arrives at the node in the state. -/
def Arrives (stop : Bool) (body : Body) (g : FlowGraph) (v : Nat) (a : M.St) : Prop :=
  ∃ p, M.Trace stop body g ((v, a) :: p)

/-- The command at the node is an assertion that does not hold in the state. -/
def Violates (body : Body) (v : Nat) (a : M.St) : Prop :=
  ∃ c, body[v]? = some c ∧ M.Refutes c.action a

/-- No execution reaches an assertion that does not hold. -/
def Safe (stop : Bool) (body : Body) (g : FlowGraph) : Prop :=
  ∀ v a, M.Arrives stop body g v a → ¬ M.Violates body v a

variable {M} {stop : Bool} {body : Body} {g : FlowGraph} {b a : M.St} {act : Action}

theorem arrives_iff {v : Nat} : M.Arrives stop body g v b ↔
    g.entry = some v ∨ ∃ u a c, M.Arrives stop body g u a ∧ body[u]? = some c ∧
      M.Does stop c.action a b ∧ v ∈ g.successors u := by
  constructor
  · rintro ⟨p, hp⟩
    cases hp with
    | start _ h => exact Or.inl h
    | step hp hc hdoes hv => exact Or.inr ⟨_, _, _, ⟨_, hp⟩, hc, hdoes, hv⟩
  · rintro (h | ⟨u, a, c, ⟨p, hp⟩, hc, hdoes, hv⟩)
    · exact ⟨[], .start b h⟩
    · exact ⟨_, .step hp hc hdoes hv⟩

theorem Does.of_stop (h : M.Does true act a b) : M.Does stop act a b := by
  cases act with
  | assert e => exact ⟨h.1, fun _ => h.2 rfl⟩
  | _ => exact h

theorem Does.stop_of_not_refutes (h : M.Does false act a b) (hok : ¬ M.Refutes act a) :
    M.Does true act a b := by
  cases act with
  | assert e => exact ⟨h.1, fun _ => not_not.mp hok⟩
  | _ => exact h

theorem Does.going_on (h : M.Does stop act a b) : M.Does false act a b := by
  cases stop with
  | false => exact h
  | true => exact h.of_stop

/-- Some execution from the node in the state reaches an assertion that does
    not hold. -/
inductive Fails (M : Machine s) (body : Body) (g : FlowGraph) : Nat → M.St → Prop where
  | here {v : Nat} {a : M.St} : M.Violates body v a → Fails M body g v a
  | later {v w : Nat} {a b : M.St} {c : Command} : body[v]? = some c →
      M.Does false c.action a b → w ∈ g.successors v → Fails M body g w b → Fails M body g v a

/-- The property is neither gained nor lost by a command of the body. -/
def Steady (M : Machine s) (body : Body) (P : M.St → Prop) : Prop :=
  ∀ c ∈ body, ∀ a b, M.Does false c.action a b → (P a ↔ P b)

/-- Whether failures are looked for forwards or backwards, the same executions
    are found to fail, also if only some states count: a property of states that
    no command changes holds all along an execution or nowhere. -/
theorem safe_within_iff (stop : Bool) {P : M.St → Prop} (hP : M.Steady body P) :
    (∀ v a, M.Arrives stop body g v a → P a → ¬ M.Violates body v a) ↔
      ∀ v a, g.entry = some v → P a → ¬ M.Fails body g v a := by
  constructor
  · intro hsafe v a hentry ha hfails
    -- Along the failure, whatever trace led to its beginning is prolonged, up to
    -- the first assertion that does not hold.
    have hreach : ∀ {v a}, M.Fails body g v a → ∀ p, M.Trace stop body g ((v, a) :: p) → ¬ P a := by
      intro v a hfails
      induction hfails with
      | here hviol => exact fun p hp ha => hsafe _ _ ⟨p, hp⟩ ha hviol
      | later hc hdoes hw _ ih =>
        intro p hp ha
        have hok : ¬ M.Refutes _ _ := fun href => hsafe _ _ ⟨p, hp⟩ ha ⟨_, hc, href⟩
        have hstep : M.Does stop _ _ _ := (hdoes.stop_of_not_refutes hok).of_stop
        exact ih _ (.step hp hc hstep hw) ((hP _ (mem_of_getElem? hc) _ _ hdoes).mp ha)
    exact hreach hfails [] (.start a hentry) ha
  · rintro hnot v a ⟨p, hp⟩ ha hviol
    -- A failure at the end of a trace is a failure from every node on it.
    have hback : ∀ q, M.Trace stop body g q → ∀ v a p, q = (v, a) :: p → P a →
        ¬ M.Fails body g v a := by
      intro q hq
      induction hq with
      | start a h =>
        rintro _ _ _ ⟨⟩ ha
        exact hnot _ a h ha
      | step _ hc hdoes hv ih =>
        rintro _ _ _ ⟨⟩ hb hfails
        have ha := (hP _ (mem_of_getElem? hc) _ _ hdoes.going_on).mpr hb
        exact ih _ _ _ rfl ha (.later hc hdoes.going_on hv hfails)
    exact hback _ hp v a p rfl ha (.here hviol)

/-- An execution that goes on after a failure has failed before. -/
theorem safe_iff_not_fails :
    M.Safe stop body g ↔ ∀ v a, g.entry = some v → ¬ M.Fails body g v a := by
  have hsteady : M.Steady body fun _ => True := fun _ _ _ _ _ => Iff.rfl
  simpa only [Safe, true_imp_iff] using safe_within_iff (g := g) stop hsteady

end Machine

/-- The action respects types. The targets of an assignment are different. -/
def Action.WellTyped (s : Scope) : Action → Prop
  | .assert e | .assume e => HasType s [] e .bool ∧ e.Plain
  | .assign pairs => (pairs.map (·.1)).Nodup ∧
      ∀ p ∈ pairs, ∃ T, s.varType? p.1 = some T ∧ HasType s [] p.2 T ∧ p.2.Plain
  | .havoc vars => ∀ x ∈ vars, ∃ T, s.varType? x = some T
  | .call _ | .goto _ | .skip => True

/-- All commands respect types. -/
def Body.WellTyped (s : Scope) (body : Body) : Prop :=
  ∀ c ∈ body, c.action.WellTyped s

end Vouch
