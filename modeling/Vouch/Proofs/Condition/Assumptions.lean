import Vouch.Proofs.Condition.Keeping
import Vouch.Proofs.Condition.Strongest

/-!
# Conditions under Assumptions

A condition is asked for under the axioms of its program, and axioms may mention
variables. Backwards, the variables of a condition have the values they start with, and
forwards, the values they have at an assertion.

## Main definitions

* `Machine.Grants`: The assumptions hold of a state.
* `Machine.SafeUnder`: No execution fails that starts in such a state.

## Theorems

* `exists_granting`: Assignments can be put together from one that shows why a state
  is granted and one that shows what a condition says of it.
* `encodes_compute_under`: Both conditions say that the body is safe under the
  assumptions.
-/

namespace Vouch

open Term

theorem Condition.compute_eq (c : Condition) (name : String) (body : Body) (g : FlowGraph) :
    c.compute name body g = if g.size = body.length then
      match g.topologicalOrder? with
      | none => throw (.cyclicFlowGraph name)
      | some order =>
        match c.method with
        | .wp => c.weakest body g order
        | .sp => c.strongest body g order
    else throw (.graphMismatch g.size body.length) := by
  by_cases h : g.size = body.length
  · rw [if_pos h]
    refine (if_neg (not_not.mpr h)).trans ?_
    cases g.topologicalOrder? <;> rfl
  · rw [if_neg h]
    exact if_pos h

/-- The term holds in all standard assignments in which the assumptions hold. -/
def Term.ValidUnder (s : Scope) (I : Interp) (as : List Term) (t : Term) : Prop :=
  ∀ ρ, s.Standard I ρ → (∀ a ∈ as, I.Holds (a.eval I ρ)) → I.Holds (t.eval I ρ)

namespace Machine

variable {s : Scope}

/-- The assumptions hold of the state, for some values of everything else. -/
def Grants (M : Machine s) (as : List Term) (a : M.St) : Prop :=
  ∃ ρ, s.Standard M.interp ρ ∧ s.Shows M.interp ρ a.get ∧
    ∀ t ∈ as, M.interp.Holds (t.eval M.interp ρ)

/-- No execution fails that starts in a state the assumptions grant. -/
def SafeUnder (M : Machine s) (as : List Term) (body : Body) (g : FlowGraph) : Prop :=
  ∀ v a, g.entry = some v → M.Grants as a → ¬ M.Fails body g v a

end Machine

section Grants

-- The assumptions are about some of the variables.
variable {s : Scope} {M : Machine s} {as : List Term} {F : String → Prop}
  (hs : s.PlainNames) (has : ∀ t ∈ as, FreeIn (s.NameOf F) t)
include hs has

open Classical in
/-- If a state is granted, the assumptions can be made to hold wherever the
    variables they are about have the same values, without changing anything that
    a condition is about. -/
theorem exists_granting {a b : M.St} (ha : M.Grants as a)
    (hagree : ∀ x, F x → a.get x = b.get x) {ρ : Assignment M.interp.Value}
    (hρ : s.Standard M.interp ρ) (hb : s.Shows M.interp ρ b.get) :
    ∃ ρ', s.Standard M.interp ρ' ∧ s.Shows M.interp ρ' b.get ∧
      (∀ N n, s.Known N n → ρ' n = ρ n) ∧ ∀ t ∈ as, M.interp.Holds (t.eval M.interp ρ') := by
  rcases ha with ⟨ρ₀, hρ₀, ha, hholds⟩
  -- The names that conditions use are taken from one, all others from the other.
  let ρ' : Assignment M.interp.Value := fun n => if ∃ N, s.Known N n then ρ n else ρ₀ n
  have hknown : ∀ N n, s.Known N n → ρ' n = ρ n := fun N n hn => if_pos ⟨N, hn⟩
  have hvalue : ∀ N y T, s.Version N y T → ρ' (valueName y) = ρ (valueName y) :=
    fun N y T hy => hknown N _ (Or.inl ⟨y, T, hy, rfl⟩)
  have hstandard : s.Standard M.interp ρ' := by
    refine ⟨fun N y T hy => ?_, fun N y hy => ?_⟩
    · rw [hvalue N y T hy]
      exact hρ.value N y T hy
    · rw [hvalue N y _ hy, hknown N y (Or.inr hy)]
      exact hρ.formula N y hy
  have hshow : s.Shows M.interp ρ' b.get := by
    intro x T hx
    rw [hvalue 0 x T (Scope.version_of_varType? hx 0)]
    exact hb x T hx
  -- A variable that is mentioned has the same value in both.
  have hsame : ∀ x T, F x → s.varType? x = some T → ρ' (valueName x) = ρ₀ (valueName x) := by
    intro x T hF hx
    rw [hshow x T hx, ha x T hx, hagree x hF]
  refine ⟨ρ', hstandard, hshow, hknown, fun t ht => ?_⟩
  have heval : t.eval M.interp ρ' = t.eval M.interp ρ₀ := by
    refine eval_congr t fun n hn => ?_
    rcases has t ht n hn with ⟨x, T, hF, hx, rfl | rfl⟩
    · by_cases hk : ∃ N, s.Known N n
      · -- The name of a variable that conditions use is the formula of a boolean.
        rcases hk with ⟨N, hk⟩
        rcases hk with ⟨y, U, _, hn⟩ | hbool
        · exact absurd hn (plainName_ne_valueName (hs n T hx))
        · rw [hstandard.formula N n hbool, hρ₀.formula N n hbool]
          exact hsame n T hF hx
      · exact if_neg hk
    · exact hsame x T hF hx
  rw [heval]
  exact hholds t ht

variable (hsep : s.Separated)
include hsep

theorem Machine.Grants.of_agree {a b : M.St} (ha : M.Grants as a)
    (hagree : ∀ x, F x → a.get x = b.get x) : M.Grants as b := by
  rcases Scope.exists_shows hs hsep b with ⟨ρ, hρ, hb⟩
  rcases exists_granting hs has ha hagree hρ hb with ⟨ρ', hρ', hb', _, hholds⟩
  exact ⟨ρ', hρ', hb', hholds⟩

theorem steady_grants {body : Body} (hframe : ∀ x, F x → ∀ cmd ∈ body, x ∉ s.writes cmd) :
    M.Steady body (M.Grants as) := by
  intro cmd hcmd a b hdoes
  have hagree : ∀ x, F x → b.get x = a.get x := fun x hx => hdoes.frame (hframe x hx cmd hcmd)
  exact ⟨fun ha => ha.of_agree hs has hsep fun x hx => (hagree x hx).symm,
    fun hb => hb.of_agree hs has hsep hagree⟩

end Grants

section Under

variable {c : Condition} {body : Body} {g : FlowGraph} {W : Stock} (hth : c.theory.Advances)
  (hs : c.scope.PlainNames) (hsep : c.scope.Separated) (hbody : body.WellTyped c.scope)
  {as : List Term} {F : String → Prop} (has : ∀ t ∈ as, FreeIn (c.scope.NameOf F) t)
include hth hs hsep hbody has

variable {order : List Nat}

theorem encodes_weakest_under (hsize : g.size = body.length) (horder : g.Sorted order) :
    Encodes W (c.weakest body g order) fun _ t =>
      ∀ M : Machine c.scope, t.ValidUnder c.scope M.interp as ↔ M.SafeUnder as body g := by
  refine (encodes_weakest_sure hth hs hsep hbody hsize horder).mono fun X t _ ⟨hover, hsure⟩ M => ?_
  constructor
  · intro hvalid v a hentry hgrants
    refine (hsure M a).mp (fun ρ hρ ha => ?_) v hentry
    -- Whether the condition holds is not changed by making the assumptions hold.
    rcases exists_granting hs has hgrants (fun _ _ => rfl) hρ ha with ⟨ρ', hρ', _, hknown, hholds⟩
    rw [← hover.eval_congr (hknown X.names)]
    exact hvalid ρ' hρ' hholds
  · intro hsafe ρ hρ hholds
    have hshow := c.scope.shows_view M.interp ρ
    refine (hsure M hρ.state).mpr (fun v hentry => ?_) ρ hρ hshow
    exact hsafe v hρ.state hentry ⟨ρ, hρ, hshow, hholds⟩

theorem encodes_strongest_under (hsize : g.size = body.length) (horder : g.Sorted order) :
    Encodes W (c.strongest body g order) fun _ t =>
      ∀ M : Machine c.scope, t.ValidUnder c.scope M.interp as ↔
        ∀ v a, M.Arrives c.assumeAsserts body g v a → M.Grants as a → ¬ M.Violates body v a := by
  refine (encodes_strongest_clears hth hs hsep hbody hsize horder).mono
    fun X t _ ⟨arrivals, htable, hclears⟩ M => ?_
  rw [← htable.clears_iff hsize horder]
  constructor
  · intro hvalid ρ hρ a ha hgrants e he hdesc
    rcases exists_granting hs has hgrants (fun _ _ => rfl) hρ ha with
      ⟨ρ', hρ', ha', hknown, hholds⟩
    refine (hclears M ρ' hρ' a ha').mp (hvalid ρ' hρ' hholds) e he ?_
    rw [(htable.entries e he).isOver.eval_congr (hknown X.names)]
    exact hdesc
  · intro h ρ hρ hholds
    have hshow := c.scope.shows_view M.interp ρ
    exact (hclears M ρ hρ hρ.state hshow).mpr (h ρ hρ hρ.state hshow ⟨ρ, hρ, hshow, hholds⟩)

/-- If the body leaves the variables of the assumptions alone, it does not matter
    whether they are made about the start or about the end of an execution. -/
theorem encodes_compute_under (hframe : ∀ x, F x → ∀ cmd ∈ body, x ∉ c.scope.writes cmd)
    (name : String) : Encodes W (c.compute name body g) fun _ t =>
      ∀ M : Machine c.scope, t.ValidUnder c.scope M.interp as ↔ M.SafeUnder as body g := by
  rw [Condition.compute_eq]
  split
  · next hsize =>
    split
    · exact yields_throw trivial
    · next order horder =>
      have horder := FlowGraph.sorted_of_topologicalOrder? horder
      split
      · exact encodes_weakest_under hth hs hsep hbody has hsize horder
      · refine (encodes_strongest_under hth hs hsep hbody has hsize horder).mono
          fun _ t _ hvalid M => (hvalid M).trans ?_
        exact Machine.safe_within_iff c.assumeAsserts (steady_grants hs has hsep hframe)
  · exact yields_throw trivial

end Under

end Vouch
