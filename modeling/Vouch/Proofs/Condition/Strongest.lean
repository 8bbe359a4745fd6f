import Vouch.Proofs.Condition.Weakest

/-!
# Strongest Conditions Are Exact

Forwards, a condition describes states, and it does so for some values of the versions:
a version stands for a value that was overwritten on the way.

## Main definitions

* `Machine.Possible`: A term holds of a state for some values of the versions.
* `Postcondition`: One step forward is exact.
* `Described`: Nodes are described, and what is owed holds where none of them fails.

## Theorems

* `encodes_descriptions`: Every node is described.
* `encodes_strongest_clears`: What is owed holds where the body does not fail.
-/

namespace Vouch

open List Term

namespace Machine

variable {s : Scope}

/-- The term holds of the state for some values of the versions. -/
def Possible (M : Machine s) (t : Term) (a : M.St) : Prop :=
  ∃ ρ, s.Standard M.interp ρ ∧ s.Shows M.interp ρ a.get ∧ M.interp.Holds (t.eval M.interp ρ)

end Machine

/-- The second term is possible after the action exactly where the action leads
    from states of which the first is possible. -/
structure Postcondition (s : Scope) (stop : Bool) (act : Action) (pre : Term) (X : Stock)
    (post : Term) : Prop where
  isOver : Over s X post
  possible : ∀ (M : Machine s) (b : M.St),
    M.Possible post b ↔ ∃ a, M.Possible pre a ∧ M.Does stop act a b

/-- The term equates the new value of a variable with the value of an expression
    on the far side of a substitution. -/
structure NewValue (s : Scope) (old : Subst) (p : String × Expr) (X : Stock) (t : Term) : Prop where
  isOver : Over s X t
  holds : ∀ (I : Interp) (ρ : Assignment I.Value), s.Standard I ρ → (I.Holds (t.eval I ρ) ↔
    ρ (valueName p.1) = I.value s p.2 [] (Assignment.view (old.after I ρ)))

section Steps

variable {c : Condition} {W X : Stock} {pre : Term} (hth : c.theory.Advances)
  (hs : c.scope.PlainNames) (hsep : c.scope.Separated) (hpre : Over c.scope W pre) {act : Action}
  {stop : Bool} {vars : List String}

theorem postcondition_of_skip {s : Scope} (hover : Over s X pre)
    (hdoes : ∀ (M : Machine s) (a b : M.St), M.Does stop act a b ↔ b = a) :
    Postcondition s stop act pre X pre := by
  refine ⟨hover, fun M b => ⟨fun h => ⟨b, h, (hdoes M b b).mpr rfl⟩, ?_⟩⟩
  rintro ⟨a, ha, hdo⟩
  rw [(hdoes M a b).mp hdo]
  exact ha

include hth hs hpre in
theorem encodes_strongestAfter_filter {e : Expr} (he : HasType c.scope [] e .bool)
    (hplain : e.Plain)
    (hdoes : ∀ (M : Machine c.scope) (a b : M.St), M.Does stop act a b ↔ b = a ∧ M.Holds e a) :
    Encodes W (do c.theory.and [pre, ← c.formula e]) (Postcondition c.scope stop act pre) := by
  refine yields_bind (encodes_encode hth hs e he hplain fun _ => rfl) fun X t hX ht => ?_
  have hpre := hpre.mono hX
  refine yields_lift ((Theory.builds_and hth (by simp [ht.has, hpre.has])).mono
    fun Y post hY hpost => ⟨hpost.isOver (W := X) (by simp [ht.isOver, hpre]) hY, fun M b => ?_⟩)
  have hiff : ∀ ρ, c.scope.Standard M.interp ρ → c.scope.Shows M.interp ρ b.get →
      (M.interp.Holds (post.eval M.interp ρ) ↔
        M.interp.Holds (pre.eval M.interp ρ) ∧ M.Holds e b) := by
    intro ρ hρ hb
    rw [hpost.holds, forall_mem_cons, forall_mem_singleton, ht.holds_iff hρ hb]
  constructor
  · rintro ⟨ρ, hρ, hb, hholds⟩
    rcases (hiff ρ hρ hb).mp hholds with ⟨hp, he⟩
    exact ⟨b, ⟨ρ, hρ, hb, hp⟩, (hdoes M b b).mpr ⟨rfl, he⟩⟩
  · rintro ⟨a, ⟨ρ, hρ, ha, hp⟩, hdo⟩
    rcases (hdoes M a b).mp hdo with ⟨rfl, he⟩
    exact ⟨ρ, hρ, ha, (hiff ρ hρ ha).mpr ⟨hp, he⟩⟩

include hth hs hsep hpre in
theorem encodes_strongestAfter_havoc (hvars : (Action.havoc vars).WellTyped c.scope) :
    Encodes W (c.strongestAfter pre (.havoc vars))
      (Postcondition c.scope stop (.havoc vars) pre) := by
  rw [Condition.strongestAfter]
  refine yields_bind (encodes_versions hth hs hsep vars) fun X σ hX ⟨num, hnum, hσ⟩ => ?_
  refine yields_lift ((builds_moved hs hσ (hpre.mono hX)).mono
    fun Y post _ ⟨hover, heval⟩ => ⟨hover, fun M b => ?_⟩)
  constructor
  · -- The far side of the substitution shows the state before.
    rintro ⟨ρ, hρ, hb, hholds⟩
    rcases hσ.shows_renew hs hvars hρ hb with ⟨a, ha, hab⟩
    rw [heval] at hholds
    exact ⟨a, ⟨_, hσ.standard_renew hs hvars hρ, ha, hholds⟩, fun x hx => (hab x hx).symm⟩
  · rintro ⟨a, ⟨τ, hτ, ha, hholds⟩, hdo⟩
    rcases hσ.exists_renewed hs hvars hsep hnum hdo hτ ha with ⟨ρ, hρ, hb, hagree⟩
    refine ⟨ρ, hρ, hb, ?_⟩
    rw [heval, hpre.eval_congr hagree]
    exact hholds

include hth hs in
theorem encodes_renewed {g : Transformation} {old : Subst} (hold : old.Moves c.scope g X) {op : Op}
    (hvar : op ≠ .var) (hall : op ≠ .all) {l r : Term} (hl : Over c.scope X l)
    (hr : Over c.scope X r) : Encodes X (do
      let equation ← c.theory.make op .formula [l, r]
      match equation.children with
      | [lhs, rhs] => do equation.withChildren [lhs, ← rhs.subst old]
      | _ => return equation) fun Y t => Over c.scope Y t ∧
        ∀ (I : Interp) (ρ : Assignment I.Value), t.eval I ρ =
          I.apply { op, sort := .formula } [l.eval I ρ, r.eval I (old.after I ρ)] := by
  refine yields_bind (yields_lift (Theory.builds_make hth (by simp [hl.has.1, hr.has.1]) op
    .formula)) fun X equation hX hmade => ?_
  rw [hmade.2.2]
  refine yields_bind (yields_lift (builds_moved hs (hold.mono hX) (hr.mono hX)))
    fun Y r' hY ⟨hr', heval⟩ => ?_
  have hl := hl.mono (hX.trans hY)
  refine yields_lift ((builds_withChildren (hY.1 hmade.1) (by simp [hl.has.1, hr'.has.1])).mono
    fun Z t hZ ht => ?_)
  rw [hmade.2.1] at ht
  have hop := ht.operator (W := Y) (by simp [hl.has, hr'.has]) hvar hall
  refine ⟨⟨hop.has, fun n hn => ?_⟩, fun I ρ => ?_⟩
  · rcases hop.free n hn with ⟨u, hu, hn⟩
    rcases mem_cons.mp hu with rfl | hu
    · exact (hl.free n hn).mono hZ.2
    · rw [mem_singleton.mp hu] at hn
      exact (hr'.free n hn).mono hZ.2
  · rw [hop.eval, map_cons, map_cons, map_nil, heval]

include hth hs in
/-- The equation for an assigned variable: its new value is the expression's
    value on the far side of the renewal. -/
theorem encodes_newValue (hvars : ∀ x ∈ vars, ∃ T, c.scope.varType? x = some T)
    {num : String → Nat} {old : Subst} (hold : old.Moves c.scope (renew vars num) W) {x : String}
    {e : Expr} {T : Ty} (hx : c.scope.varType? x = some T) (he : HasType c.scope [] e T)
    (hplain : e.Plain) : Encodes W (c.newValue old x e) (NewValue c.scope old (x, e)) := by
  unfold Condition.newValue
  refine yields_bind (yields_variableType c.toEncoding x trivial) fun X₁ U h₁ hU => ?_
  rw [hx, Option.some.injEq] at hU
  subst hU
  refine yields_bind (encodes_varTerms c.toEncoding hth x T) fun X₂ p h₂ hp => ?_
  have hgives := hp.gives (Scope.version_of_varType? hx X₂.names)
  by_cases hT : T = .bool
  · -- Booleans are compared as formulas, which for truth values is the same.
    subst hT
    rcases hgives.formula rfl with ⟨f, hf, hfover, hfeval⟩
    rw [hf]
    refine yields_bind (encodes_encode hth hs e he hplain fun _ => rfl) fun X₃ t h₃ ht => ?_
    have hold := hold.mono (h₁.trans (h₂.trans h₃))
    refine (encodes_renewed hth hs hold (by simp) (by simp) (hfover.mono h₃) ht.isOver).mono
      fun Y r _ hr => ⟨hr.1, fun I ρ hρ => ?_⟩
    have hτ := hold.standard_renew hs hvars hρ
    rw [hr.2, hfeval I ρ hρ, ht.eval_view hτ]
    simp only [Interp.apply, I.holds_truth]
    exact ⟨I.eq_of_holds_iff (hρ.value 0 x _ (Scope.version_of_varType? hx 0))
      (he.dom_value hτ.fits), fun h => iff_of_eq (congrArg I.Holds h)⟩
  · rw [hgives.value hT]
    refine yields_bind (encodes_encode hth hs e he hplain (by simp)) fun X₃ t h₃ ht => ?_
    have hold := hold.mono (h₁.trans (h₂.trans h₃))
    refine (encodes_renewed hth hs hold (by simp) (by simp) (hgives.isOver.mono h₃) ht.isOver).mono
      fun Y r _ hr => ⟨hr.1, fun I ρ hρ => ?_⟩
    rw [hr.2, hgives.eval I ρ hρ, ht.eval_view (hold.standard_renew hs hvars hρ)]
    simp only [Interp.apply, I.holds_truth, Assignment.view]

include hth hs hsep hpre in
theorem encodes_strongestAfter_assign {pairs : List (String × Expr)}
    (hpairs : (Action.assign pairs).WellTyped c.scope) :
    Encodes W (c.strongestAfter pre (.assign pairs))
      (Postcondition c.scope stop (.assign pairs) pre) := by
  have hvars : ∀ x ∈ pairs.map (·.1), ∃ T, c.scope.varType? x = some T := by
    intro x hx
    rcases mem_map.mp hx with ⟨p, hp, rfl⟩
    rcases hpairs.2 p hp with ⟨T, hT, _⟩
    exact ⟨T, hT⟩
  rw [Condition.strongestAfter]
  refine yields_bind (encodes_versions hth hs hsep _) fun X₁ σ h₁ ⟨num, hnum, hσ⟩ => ?_
  refine yields_bind (yields_lift (builds_moved hs hσ (hpre.mono h₁)))
    fun X₂ before h₂ ⟨hbefore, hbeval⟩ => ?_
  refine yields_bind (yields_mapM (R := NewValue c.scope σ)
    (fun p X Y t hXY h => ⟨h.isOver.mono hXY, h.holds⟩) fun p hp Y hY => ?_) fun X₃ ts h₃ hts => ?_
  · rcases hpairs.2 p hp with ⟨T, hT, htype, hplain⟩
    exact encodes_newValue hth hs hvars (hσ.mono (h₂.trans hY)) hT htype hplain
  have hover : ∀ t ∈ before :: ts, Over c.scope X₃ t := by
    intro t ht
    rcases mem_cons.mp ht with rfl | ht
    · exact hbefore.mono h₃
    · rcases exists_of_forall₂_left hts ht with ⟨_, _, h⟩
      exact h.isOver
  refine yields_lift ((Theory.builds_and hth fun t ht => (hover t ht).has).mono
    fun Y post hY hpost => ⟨hpost.isOver hover hY, fun M b => ?_⟩)
  -- The description after: the one before on the far side, and the equations.
  have hiff : ∀ ρ, c.scope.Standard M.interp ρ → (M.interp.Holds (post.eval M.interp ρ) ↔
      M.interp.Holds (pre.eval M.interp (σ.after M.interp ρ)) ∧ ∀ p ∈ pairs, ρ (valueName p.1) =
        M.interp.value c.scope p.2 [] (Assignment.view (σ.after M.interp ρ))) := by
    intro ρ hρ
    rw [hpost.holds, forall_mem_cons, hbeval]
    refine and_congr_right fun _ => ⟨fun h p hp => ?_, fun h t ht => ?_⟩
    · rcases exists_of_forall₂_right hts hp with ⟨t, ht, hvalue⟩
      exact (hvalue.holds M.interp ρ hρ).mp (h t ht)
    · rcases exists_of_forall₂_left hts ht with ⟨p, hp, hvalue⟩
      exact (hvalue.holds M.interp ρ hρ).mpr (h p hp)
  constructor
  · -- The equations say of the state before that it leads to this one.
    rintro ⟨ρ, hρ, hb, hholds⟩
    rcases (hiff ρ hρ).mp hholds with ⟨hp, heqs⟩
    rcases hσ.shows_renew hs hvars hρ hb with ⟨a, ha, hab⟩
    refine ⟨a, ⟨_, hσ.standard_renew hs hvars hρ, ha, hp⟩, funext fun x => ?_⟩
    by_cases hx : x ∈ pairs.map (·.1)
    · rcases mem_map.mp hx with ⟨p, hp, rfl⟩
      rcases hpairs.2 p hp with ⟨T, hT, htype, _⟩
      rw [Interp.assigned_of_mem hpairs.1 hp, ← hb p.1 T hT, heqs p hp]
      exact htype.value_congr fun y U hy => ha y U hy
    · rw [Interp.assigned_of_not_mem hx, hab x hx]
  · -- The versions take the values before, and the equations hold of these.
    rintro ⟨a, ⟨τ, hτ, ha, hholds⟩, hdo⟩
    have hoff : ∀ x, x ∉ pairs.map (·.1) → b.get x = a.get x := fun x hx => by
      rw [hdo, Interp.assigned_of_not_mem hx]
    rcases hσ.exists_renewed hs hvars hsep hnum hoff hτ ha with ⟨ρ, hρ, hb, hagree⟩
    refine ⟨ρ, hρ, hb, (hiff ρ hρ).mpr ⟨?_, fun p hp => ?_⟩⟩
    · rw [hpre.eval_congr hagree]
      exact hholds
    · rcases hpairs.2 p hp with ⟨T, hT, htype, _⟩
      rw [hb p.1 T hT, hdo, Interp.assigned_of_mem hpairs.1 hp]
      refine htype.value_congr fun y U hy => ?_
      rw [Assignment.view, hagree _ (.inl ⟨y, U, Scope.version_of_varType? hy _, rfl⟩), ha y U hy]

include hth hs hsep hpre in
theorem encodes_strongestAfter (hact : act.WellTyped c.scope) :
    Encodes W (c.strongestAfter pre act) (Postcondition c.scope c.assumeAsserts act pre) := by
  cases act with
  | assert e =>
    rw [Condition.strongestAfter]
    cases hstop : c.assumeAsserts with
    | true =>
      exact encodes_strongestAfter_filter hth hs hpre hact.1 hact.2
        fun M a b => by simp [Machine.Does]
    | false =>
      exact yields_pure (postcondition_of_skip hpre fun M a b => by simp [Machine.Does])
  | assume e =>
    exact encodes_strongestAfter_filter hth hs hpre hact.1 hact.2 fun _ _ _ => Iff.rfl
  | assign pairs => exact encodes_strongestAfter_assign hth hs hsep hpre hact
  | havoc vars => exact encodes_strongestAfter_havoc hth hs hsep hpre hact
  | call site => exact yields_throw trivial
  | goto targets | skip => exact yields_pure (postcondition_of_skip hpre fun _ _ _ => Iff.rfl)

end Steps

section Graph

variable (s : Scope) (stop : Bool) (body : Body) (g : FlowGraph)

/-- The term describes the states that executions arrive in at the node. -/
structure Describes (v : Nat) (X : Stock) (t : Term) : Prop where
  isOver : Over s X t
  possible : ∀ (M : Machine s) (a : M.St), M.Possible t a ↔ M.Arrives stop body g v a

/-- The term describes the states that executions leave the node in. -/
structure Departs (v : Nat) (X : Stock) (t : Term) : Prop where
  isOver : Over s X t
  possible : ∀ (M : Machine s) (b : M.St), M.Possible t b ↔
    ∃ a cmd, M.Arrives stop body g v a ∧ body[v]? = some cmd ∧ M.Does stop cmd.action a b

/-- Under an assignment that shows the state, no described node whose description
    holds fails in the state. -/
def Machine.Clears (M : Machine s) (arrivals : List (Nat × Term)) (ρ : Assignment M.interp.Value)
    (a : M.St) : Prop :=
  ∀ e ∈ arrivals, M.interp.Holds (e.2.eval M.interp ρ) → ¬ M.Violates body e.1 a

/-- Some nodes are described, and what is owed at them holds exactly where none of
    them fails. -/
structure Described (done : List Nat) (X : Stock) (d : Descriptions) : Prop where
  arrivals : Tabled (Describes s stop body g) done X d.arrivals
  departures : Tabled (Departs s stop body g) done X d.departures
  isOver : ∀ t ∈ d.obligations, Over s X t
  owed : ∀ (M : Machine s) ρ, s.Standard M.interp ρ → ∀ a : M.St, s.Shows M.interp ρ a.get →
    ((∀ t ∈ d.obligations, M.interp.Holds (t.eval M.interp ρ)) ↔ M.Clears s body d.arrivals ρ a)

end Graph

section Graph

variable {c : Condition} {body : Body} {g : FlowGraph} {W : Stock} (hth : c.theory.Advances)
  (hs : c.scope.PlainNames) (hsep : c.scope.Separated) {X : Stock} {s : Scope} {stop : Bool}
  {v : Nat} {done : List Nat}

theorem Describes.mono {W : Stock} {t : Term} (hWX : W ≤ X) (h : Describes s stop body g v W t) :
    Describes s stop body g v X t :=
  ⟨h.isOver.mono hWX, h.possible⟩

theorem Departs.mono {W : Stock} {t : Term} (hWX : W ≤ X) (h : Departs s stop body g v W t) :
    Departs s stop body g v X t :=
  ⟨h.isOver.mono hWX, h.possible⟩

include hth hs hsep in
/-- What arrives is anything at the entry, and what left a predecessor
    elsewhere. -/
theorem encodes_arrival {table : List (Nat × Term)}
    (htable : Tabled (Departs c.scope stop body g) done W table)
    (hdone : ∀ u, v ∈ g.successors u → u ∈ done) :
    Encodes W (c.arrival g table v) (Describes c.scope stop body g v) := by
  unfold Condition.arrival
  split
  · next hentry =>
    -- Every state is one to start in, so an assignment has to show it.
    refine (encodes_true c.scope).mono fun X t _ ⟨hover, hholds⟩ => ⟨hover, fun M a => ?_⟩
    rcases Scope.exists_shows hs hsep a with ⟨ρ, hρ, ha⟩
    exact ⟨fun _ => Machine.arrives_iff.mpr (.inl hentry),
      fun _ => ⟨ρ, hρ, ha, hholds M.interp ρ⟩⟩
  · next hentry =>
    refine yields_bind (htable.encodes_lookups (fun _ _ _ _ hWX h => h.mono hWX)
      fun u hu => hdone u (FlowGraph.mem_predecessors.mp hu)) fun X ts hX hts => ?_
    have hover : ∀ t ∈ ts, Over c.scope X t := fun t ht => by
      rcases exists_of_forall₂_left hts ht with ⟨_, _, h⟩
      exact h.isOver
    refine yields_lift ((Theory.builds_or hth fun t ht => (hover t ht).has).mono
      fun Y pre hY hpre => ⟨hpre.isOver hover hY, fun M a => ?_⟩)
    rw [Machine.arrives_iff]
    constructor
    · rintro ⟨ρ, hρ, ha, hholds⟩
      rcases (hpre.holds M.interp ρ).mp hholds with ⟨t, ht, hholds⟩
      rcases exists_of_forall₂_left hts ht with ⟨u, hu, hdep⟩
      rcases (hdep.possible M a).mp ⟨ρ, hρ, ha, hholds⟩ with ⟨a', cmd, harr, hcmd, hdoes⟩
      exact .inr ⟨u, a', cmd, harr, hcmd, hdoes, FlowGraph.mem_predecessors.mp hu⟩
    · rintro (h | ⟨u, a', cmd, harr, hcmd, hdoes, hv⟩)
      · exact absurd h hentry
      · rcases exists_of_forall₂_right hts (FlowGraph.mem_predecessors.mpr hv) with ⟨t, ht, hdep⟩
        rcases (hdep.possible M a).mpr ⟨a', cmd, harr, hcmd, hdoes⟩ with ⟨ρ, hρ, ha, hholds⟩
        exact ⟨ρ, hρ, ha, (hpre.holds M.interp ρ).mpr ⟨t, ht, hholds⟩⟩

include hth hs in
theorem encodes_owed {pre : Term} (hpre : Over c.scope W pre) {cmd : Command}
    (hcmd : body[v]? = some cmd) (hact : cmd.action.WellTyped c.scope) :
    Encodes W (c.owed pre cmd.action) fun X ts => (∀ t ∈ ts, Over c.scope X t) ∧
      ∀ (M : Machine c.scope) ρ, c.scope.Standard M.interp ρ → ∀ a : M.St,
        c.scope.Shows M.interp ρ a.get → ((∀ t ∈ ts, M.interp.Holds (t.eval M.interp ρ)) ↔
          (M.interp.Holds (pre.eval M.interp ρ) → ¬ M.Violates body v a)) := by
  have hviol : ∀ (M : Machine c.scope) (a : M.St),
      M.Violates body v a ↔ M.Refutes cmd.action a := by
    simp [Machine.Violates, hcmd]
  simp only [hviol]
  cases haction : cmd.action with
  | assert e =>
    rw [haction] at hact
    rw [Condition.owed]
    refine yields_bind (encodes_encode hth hs e hact.1 hact.2 fun _ => rfl) fun X t hX ht => ?_
    have hover := hpre.mono hX
    refine yields_bind (yields_lift (Theory.builds_implies hth hover.has ht.has))
      fun Y r hY hr => yields_pure ⟨?_, fun M ρ hρ a ha => ?_⟩
    · rw [forall_mem_singleton]
      exact hr.isOver (W := X) (by simp [hover, ht.isOver]) hY
    · rw [forall_mem_singleton, hr.holds, ht.holds_iff hρ ha]
      exact imp_congr_right fun _ => not_not.symm
  | _ => exact yields_pure ⟨by simp, fun M ρ _ a _ => by simp [Machine.Refutes]⟩

variable (hbody : body.WellTyped c.scope) (hsize : g.size = body.length)
  {order : List Nat} (horder : g.Sorted order)
include hth hs hsep hbody hsize horder

theorem encodes_describe {todo : List Nat} (hsplit : order = done ++ v :: todo) {d : Descriptions}
    (hd : Described c.scope c.assumeAsserts body g done W d) :
    Encodes W (c.describe body g d v)
      (Described c.scope c.assumeAsserts body g (done ++ [v])) := by
  have hlt : v < body.length := hsize ▸ (horder.complete v).mp (by simp [hsplit])
  have hcmd : body[v]? = some body[v] := getElem?_eq_getElem hlt
  have hact := hbody _ (getElem_mem hlt)
  have hdone : ∀ w, w ∈ done ++ [v] ↔ w = v ∨ w ∈ done := by simp [or_comm]
  unfold Condition.describe
  refine yields_bind (encodes_arrival hth hs hsep hd.departures
    fun u hu => horder.before hsplit hu) fun X₁ pre h₁ hpre => ?_
  rw [hcmd]
  refine yields_bind (encodes_owed hth hs hpre.isOver hcmd hact) fun X₂ ts h₂ hnew => ?_
  rcases hnew with ⟨hts, howed⟩
  refine yields_bind (encodes_strongestAfter hth hs hsep (hpre.isOver.mono h₂) hact)
    fun X₃ post h₃ hpost => yields_pure ?_
  have hWX := h₁.trans (h₂.trans h₃)
  refine ⟨(hd.arrivals.mono (fun _ _ _ _ h h' => h'.mono h) hWX).cons
      (hpre.mono (h₂.trans h₃)) hdone,
    (hd.departures.mono (fun _ _ _ _ h h' => h'.mono h) hWX).cons
      ⟨hpost.isOver, fun M b => ?_⟩ hdone,
    fun t ht => ?_, fun M ρ hρ a ha => ?_⟩
  · rw [hpost.possible]
    simp [hpre.possible, hcmd]
  · rcases mem_append.mp ht with ht | ht
    · exact (hd.isOver t ht).mono hWX
    · exact (hts t ht).mono h₃
  · rw [forall_mem_append, hd.owed M ρ hρ a ha, howed M ρ hρ a ha, Machine.Clears,
      Machine.Clears, forall_mem_cons]
    exact and_comm

theorem encodes_described : ∀ {todo done : List Nat} {W : Stock} {d : Descriptions},
    order = done ++ todo → Described c.scope c.assumeAsserts body g done W d →
    Encodes W (todo.foldlM (c.describe body g) d) (Described c.scope c.assumeAsserts body g order)
  | [], done, W, d, hsplit, hd => by
    rw [append_nil] at hsplit
    exact hsplit ▸ yields_pure hd
  | v :: todo, done, W, d, hsplit, hd => by
    rw [foldlM_cons]
    exact yields_bind (encodes_describe hth hs hsep hbody hsize horder hsplit hd)
      fun X d' _ hd' => encodes_described (by simp [hsplit]) hd'

/-- Each node is described by the states in which executions arrive at it. -/
theorem encodes_descriptions : Encodes W (c.descriptions body g order)
    (Described c.scope c.assumeAsserts body g order) := by
  have hnone : Described c.scope c.assumeAsserts body g [] W {} := by
    exact ⟨Tabled.nil W, Tabled.nil W, by simp, by simp [Machine.Clears]⟩
  exact encodes_described hth hs hsep hbody hsize horder (nil_append order).symm hnone

/-- The condition holds for a state if no assertion fails that the state can arrive at. -/
theorem encodes_strongest_clears : Encodes W (c.strongest body g order) fun X t =>
    ∃ arrivals, Tabled (Describes c.scope c.assumeAsserts body g) order X arrivals ∧
      ∀ (M : Machine c.scope) ρ, c.scope.Standard M.interp ρ → ∀ a : M.St,
        c.scope.Shows M.interp ρ a.get →
        (M.interp.Holds (t.eval M.interp ρ) ↔ M.Clears c.scope body arrivals ρ a) := by
  unfold Condition.strongest
  refine yields_bind (encodes_descriptions hth hs hsep hbody hsize horder) fun X d _ hd => ?_
  refine yields_lift ((Theory.builds_and hth fun t ht => (hd.isOver t ht).has).mono
    fun Y t hY ht => ⟨d.arrivals, hd.arrivals.mono (fun _ _ _ _ h h' => h'.mono h) hY,
      fun M ρ hρ a ha => ?_⟩)
  rw [ht.holds]
  exact hd.owed M ρ hρ a ha

omit hth hs hsep hbody in
theorem Tabled.clears_iff {arrivals : List (Nat × Term)}
    (h : Tabled (Describes s stop body g) order X arrivals) {M : Machine s} {P : M.St → Prop} :
    (∀ ρ, s.Standard M.interp ρ → ∀ a : M.St, s.Shows M.interp ρ a.get → P a →
        M.Clears s body arrivals ρ a) ↔
      ∀ v a, M.Arrives stop body g v a → P a → ¬ M.Violates body v a := by
  constructor
  · intro hclears v a harr ha hviol
    -- A node that fails has a command, so it is in the order.
    rcases hviol with ⟨cmd, hcmd, href⟩
    have hlt : v < body.length := (List.getElem?_eq_some_iff.mp hcmd).1
    rcases h.found ((horder.complete v).mpr (hsize ▸ hlt)) with ⟨pre, hlookup, hpre⟩
    rcases (hpre.possible M a).mpr harr with ⟨ρ, hρ, hshow, hholds⟩
    exact hclears ρ hρ a hshow ha (v, pre) (mem_of_lookup hlookup) hholds ⟨cmd, hcmd, href⟩
  · intro hsafe ρ hρ a hshow ha e he hholds
    exact hsafe e.1 a (((h.entries e he).possible M a).mp ⟨ρ, hρ, hshow, hholds⟩) ha

end Graph

end Vouch
