import Vouch.Proofs.Condition.Exactness
import Vouch.Proofs.Condition.Sides

/-!
# Which Bodies Have a Condition

Every node is visited, reachable or not, and nothing that was made for other nodes
matters. So a body has a condition exactly if its graph fits, has an order, and every
command can be encoded on its own.

## Main definitions

* `Condition.Takes`: An action can be encoded.

## Theorems

* `methods_accept_iff`: Where there is a condition backwards and where forwards.
* `assumed_asserts_agree`: Assuming what was asserted changes neither which bodies
  have a condition nor which conditions are valid.
-/

namespace Vouch

open List

/-- The sides on which an expression is encoded to be assigned to a variable of
    the type. -/
def Method.sides : Method → Ty → List Side
  | .wp, .bool => [.value, .formula]
  | .sp, .bool => [.formula]
  | _, _ => [.value]

/-- The action can be encoded. -/
def Condition.Takes (c : Condition) : Action → Prop
  | .assert e | .assume e => c.Accepts .formula [] e
  | .assign pairs => ∀ p ∈ pairs, ∃ T, c.scope.varType? p.1 = some T ∧
      ∀ side ∈ c.method.sides T, c.Accepts side [] p.2
  | .havoc vars => ∀ x ∈ vars, ∃ T, c.scope.varType? x = some T
  | .goto _ | .skip => True
  | .call _ => False

theorem succeeds_foldlM {α β : Type} {f : β → α → Encode β} {p : α → Prop}
    (hf : ∀ b a, Succeeds (f b a) (p a)) :
    ∀ (as : List α) (b : β), Succeeds (as.foldlM f b) (∀ a ∈ as, p a)
  | [], b => (succeeds_pure b).congr (by simp)
  | a :: as, b => by
    rw [foldlM_cons, forall_mem_cons]
    exact succeeds_bind (hf b a) fun b' => succeeds_foldlM hf as b'

theorem Succeeds.before {α β : Type} {m : Encode α} {f : α → Encode β} {p : Prop}
    (hm : Succeeds m True) (hf : ∀ a, Succeeds (f a) p) : Succeeds (m >>= f) p :=
  (succeeds_bind hm hf).congr (true_and p).to_iff

section Commands

variable {c : Condition} {x : String} {e : Expr}

theorem succeeds_variableType_bind {α : Type} {f : Ty → Encode α} {p : Ty → Prop}
    (hf : ∀ T, c.scope.varType? x = some T → Succeeds (f T) (p T)) :
    Succeeds (c.variableType x >>= f) (∃ T, c.scope.varType? x = some T ∧ p T) := by
  unfold Encoding.variableType
  cases hT : c.scope.varType? x with
  | some T => exact (hf T hT).congr (by simp)
  | none => exact (succeeds_throw _).congr (by simp)

theorem succeeds_versions (vars : List String) :
    Succeeds (c.versions vars) (∀ x ∈ vars, ∃ T, c.scope.varType? x = some T) := by
  refine succeeds_foldlM (fun σ x => ?_) _ ∅
  refine (succeeds_variableType x).andThen fun T => ?_
  unfold Encoding.freshVariable
  rw [bind_assoc]
  exact (succeeds_lift _).andThen fun y => succeeds_varTerms_bind fun v _ => succeeds_pure _

theorem succeeds_lookup (table : List (Nat × Term)) (v : Nat) :
    Succeeds (Condition.lookup table v) True := by
  unfold Condition.lookup
  split
  · exact succeeds_pure _
  · exact succeeds_lift _

theorem succeeds_lookups (table : List (Nat × Term)) (vs : List Nat) :
    Succeeds (vs.mapM (Condition.lookup table)) True :=
  (succeeds_mapM fun v => succeeds_lookup table v).congr (by simp)

/-! ### Backwards -/

theorem succeeds_assignment (hwp : c.method = .wp) : Succeeds (c.assignment x e)
    (∃ T, c.scope.varType? x = some T ∧ ∀ side ∈ c.method.sides T, c.Accepts side [] e) := by
  refine succeeds_variableType_bind fun T _ => ?_
  rw [hwp]
  cases T with
  | bool =>
    refine (succeeds_bind (succeeds_encode e) fun t =>
      (succeeds_encode e).andThen fun f => succeeds_pure _).congr ?_
    simp [Method.sides]
  | _ => exact ((succeeds_encode e).andThen fun t => succeeds_pure _).congr (by simp [Method.sides])

theorem succeeds_weakestBefore (hwp : c.method = .wp) (post : Term) (action : Action) :
    Succeeds (c.weakestBefore post action) (c.Takes action) := by
  cases action with
  | assert e =>
    refine (succeeds_encode e).andThen fun t => ?_
    split
    · exact (succeeds_lift _).andThen fun r => succeeds_lift _
    · exact succeeds_lift _
  | assume e => exact (succeeds_encode e).andThen fun t => succeeds_lift _
  | assign pairs =>
    refine (succeeds_foldlM (fun σ p => ?_) _ ∅).andThen fun σ => succeeds_lift _
    exact (succeeds_assignment hwp).andThen fun entries => succeeds_pure _
  | havoc vars => exact (succeeds_versions vars).andThen fun σ => succeeds_lift _
  | goto _ | skip => exact succeeds_pure post
  | call site => exact succeeds_throw _

theorem succeeds_weakest (hwp : c.method = .wp) (body : Body) (g : FlowGraph) (order : List Nat) :
    Succeeds (c.weakest body g order)
      (∀ v ∈ order, ∀ d, body[v]? = some d → c.Takes d.action) := by
  have hstep : ∀ table v, Succeeds (c.weakestStep body g table v)
      (∀ d, body[v]? = some d → c.Takes d.action) := by
    intro table v
    refine (succeeds_lookups table _).before fun ts => (succeeds_lift _).before fun post => ?_
    cases hd : body[v]? with
    | some d =>
      exact ((succeeds_weakestBefore hwp post d.action).andThen fun pre => succeeds_pure _).congr
        (by simp)
    | none => exact (succeeds_pure _).congr (by simp)
  refine ((succeeds_foldlM hstep order.reverse []).andThen fun table => ?_).congr (by simp)
  split
  · exact succeeds_lookup table _
  · exact succeeds_lift _

/-! ### Forwards -/

theorem succeeds_newValue (hsp : c.method = .sp) (old : Subst) : Succeeds (c.newValue old x e)
    (∃ T, c.scope.varType? x = some T ∧ ∀ side ∈ c.method.sides T, c.Accepts side [] e) := by
  refine succeeds_variableType_bind fun T _ => succeeds_varTerms_bind fun v hv => ?_
  rw [hsp]
  have hsides : Method.sp.sides T = [if v.formula.isSome then .formula else .value] := by
    rw [hv]
    cases T <;> rfl
  rw [hsides]
  -- A boolean is the one to have a formula, and then the expression needs one.
  cases v.formula
  all_goals
    refine ((succeeds_encode e).andThen fun t => (succeeds_lift _).before fun equation => ?_).congr
      (by simp)
    dsimp only
    split
    · exact (succeeds_lift _).before fun r => succeeds_lift _
    · exact succeeds_pure _

theorem succeeds_owed (pre : Term) (action : Action) :
    Succeeds (c.owed pre action) (∀ e, action = .assert e → c.Takes action) := by
  cases action with
  | assert e =>
    refine ((succeeds_encode e).andThen fun t => (succeeds_lift _).before fun r =>
      succeeds_pure _).congr ?_
    exact ⟨fun h _ _ => h, fun h => h e rfl⟩
  | _ => exact (succeeds_pure _).congr (by simp)

theorem succeeds_strongestAfter (hsp : c.method = .sp) (pre : Term) (action : Action) :
    Succeeds (c.strongestAfter pre action)
      (c.Takes action ∨ c.assumeAsserts = false ∧ ∃ e, action = .assert e) := by
  have hfilter : ∀ e : Expr, Succeeds (do c.theory.and [pre, ← c.formula e] : Encode Term)
      (c.Accepts .formula [] e) := fun e => (succeeds_encode e).andThen fun t => succeeds_lift _
  cases action with
  | assert e =>
    rw [Condition.strongestAfter]
    split
    · next h => exact (hfilter e).congr (by simp [h, Condition.Takes])
    · next h => exact (succeeds_pure pre).congr (by simpa using Or.inr h)
  | assume e => exact (hfilter e).congr (by simp [Condition.Takes])
  | assign pairs =>
    refine (succeeds_bind (succeeds_versions _) fun old => (succeeds_lift _).before fun before =>
      (succeeds_mapM fun p => succeeds_newValue hsp old).andThen fun ts => succeeds_lift _).congr ?_
    simp only [Condition.Takes, reduceCtorEq, exists_const, and_false, or_false]
    -- Looking up the targets for their versions asks for less than what follows.
    refine and_iff_right_of_imp fun h x hx => ?_
    rcases mem_map.mp hx with ⟨p, hp, rfl⟩
    exact (h p hp).imp fun T hT => hT.1
  | havoc vars =>
    refine ((succeeds_versions vars).andThen fun σ => succeeds_lift _).congr ?_
    simp [Condition.Takes]
  | goto _ | skip => exact (succeeds_pure pre).congr (by simp [Condition.Takes])
  | call site => exact (succeeds_throw _).congr (by simp [Condition.Takes])

theorem succeeds_strongest (hsp : c.method = .sp) (body : Body) (g : FlowGraph)
    (order : List Nat) : Succeeds (c.strongest body g order)
      (∀ v ∈ order, ∀ d, body[v]? = some d → c.Takes d.action) := by
  have hstep : ∀ d v, Succeeds (c.describe body g d v)
      (∀ d, body[v]? = some d → c.Takes d.action) := by
    intro d v
    have harrival : Succeeds (c.arrival g d.departures v) True := by
      unfold Condition.arrival
      split
      · exact succeeds_lift _
      · exact (succeeds_lookups _ _).before fun ts => succeeds_lift _
    refine harrival.before fun pre => ?_
    cases hd : body[v]? with
    | some command =>
      refine (succeeds_bind (succeeds_owed pre command.action) fun new =>
        (succeeds_strongestAfter hsp pre command.action).andThen fun post =>
          succeeds_pure _).congr ?_
      simp only [Option.some.injEq, forall_eq']
      exact ⟨fun ⟨howed, h⟩ => h.elim id fun ⟨_, e, he⟩ => howed e he,
        fun h => ⟨fun _ _ => h, Or.inl h⟩⟩
    | none => exact (succeeds_pure _).congr (by simp)
  exact (succeeds_foldlM hstep _ _).andThen fun d => succeeds_lift _

/-! ### Bodies -/

theorem succeeds_compute (name : String) (body : Body) (g : FlowGraph) :
    Succeeds (c.compute name body g) (g.size = body.length ∧
      g.topologicalOrder?.isSome = true ∧ ∀ d ∈ body, c.Takes d.action) := by
  rw [Condition.compute_eq]
  split
  · next hsize =>
    cases horder : g.topologicalOrder? with
    | none => exact (succeeds_throw _).congr (by simp)
    | some order =>
      -- All nodes are in the order, and so all commands are encoded.
      have hall : (∀ v ∈ order, ∀ d, body[v]? = some d → c.Takes d.action) ↔
          g.size = body.length ∧ (some order).isSome = true ∧ ∀ d ∈ body, c.Takes d.action := by
        have hcomplete := (FlowGraph.sorted_of_topologicalOrder? horder).complete
        refine ⟨fun h => ⟨hsize, rfl, fun d hd => ?_⟩, fun h v _ d hd =>
          h.2.2 d (mem_of_getElem? hd)⟩
        rcases mem_iff_getElem?.mp hd with ⟨v, hv⟩
        refine h v ((hcomplete v).mpr ?_) d hv
        rw [hsize]
        exact (List.getElem?_eq_some_iff.mp hv).1
      cases hmethod : c.method with
      | wp => exact (succeeds_weakest hmethod body g order).congr hall
      | sp => exact (succeeds_strongest hmethod body g order).congr hall
  · next hsize => exact (succeeds_throw _).congr (by simp [hsize])

end Commands

theorem Succeeds.of_runFresh {α : Type} {m : Encode α} {p : Prop} (h : Succeeds m p)
    (supply : Supply) : (∃ a, (m.runFresh.run supply).1 = .ok a) ↔ p :=
  (h { supply } fun _ _ hp => by cases hp).2

mutual

theorem Encoding.Accepts.value_iff {c : Encoding} : ∀ {e : Expr} {side : Side}
    {Γ : List (String × Ty)}, c.Accepts side Γ e →
      (c.Accepts .value Γ e ↔ e.Placed c.scope .value Γ)
  | .bool _, _, _, _ => by rw [Accepts, Expr.Placed]
  | .int _, _, _, _ => by simp [Accepts, Expr.Placed]
  | .var _, _, _, h => iff_of_true h trivial
  | .unary .neg e, _, _, h => by
    rw [Accepts] at h
    rw [Accepts, Expr.Placed, h.2.value_iff]
    exact and_iff_right rfl
  | .unary .not e, _, _, h => by
    rw [Accepts] at h
    rw [Accepts, Expr.Placed, h.value_iff]
  | .binary op l r, _, _, h => by
    rw [Accepts] at h
    rw [Accepts, Expr.Placed]
    simp only [BinOp.operandSide, h.2.1.value_iff, h.2.2.value_iff, reduceCtorEq, false_imp_iff,
      true_and]
  | .app _ args, _, _, h => by
    rw [Accepts] at h
    rw [Accepts, Expr.Placed]
    exact iff_of_true h h.placed
  | .select m idx, _, _, h => by
    exact iff_of_true h ⟨h.1.value_iff.mp h.1, h.2.placed⟩
  | .update m idx v, _, _, h => by
    exact iff_of_true h ⟨h.1.value_iff.mp h.1, h.2.1.placed, h.2.2.value_iff.mp h.2.2⟩
  | .all _ _, _, _, _ => by simp [Accepts, Expr.Placed]

theorem Encoding.AcceptsAll.placed {c : Encoding} : ∀ {es : List Expr} {Γ : List (String × Ty)},
    c.AcceptsAll Γ es → Expr.PlacedAll c.scope Γ es
  | [], _, _ => trivial
  | _ :: _, _, h => ⟨h.1.value_iff.mp h.1, h.2.placed⟩

end

section Methods

variable (c : Condition)

theorem Condition.takes_wp_iff (action : Action) :
    Condition.Takes { c with method := .wp } action ↔
      Condition.Takes { c with method := .sp } action ∧ ∀ pairs, action = .assign pairs →
        ∀ p ∈ pairs, c.scope.varType? p.1 = some .bool → p.2.Placed c.scope .value [] := by
  cases action with
  | assign pairs =>
    simp only [Takes, Action.assign.injEq, forall_eq', ← forall₂_and]
    refine forall₂_congr fun p _ => ?_
    cases hT : c.scope.varType? p.1 with
    | none => simp
    | some T =>
      cases T with
      | bool =>
        simp only [Option.some.injEq, exists_eq_left', Method.sides, forall_mem_cons,
          not_mem_nil, false_imp_iff, implies_true, and_true, true_imp_iff]
        exact ⟨fun h => ⟨h.2, h.2.value_iff.mp h.1⟩, fun h => ⟨h.1.value_iff.mpr h.2, h.1⟩⟩
      | _ => simp [Method.sides]
  | _ => simp [Takes]

variable (name : String) (body : Body) (g : FlowGraph) (supply supply' : Supply)

/-- A boolean is told whether every number equals itself. -/
def quantifyingBody : Body :=
  [.assign "b" (.all [⟨"i", .int⟩] (.eq (.var "i") (.var "i")))]

end Methods

section Assertions

variable {c : Condition} {body : Body}

/-- Assuming what was asserted neither makes computing a condition fail nor keeps it
    from failing, and it does not change in which interpretations the condition is
    valid. -/
theorem assumed_asserts_agree (hth : c.theory.Advances) (hs : c.scope.PlainNames)
    (hsep : c.scope.Separated) (hbody : body.WellTyped c.scope) (name : String) (g : FlowGraph)
    (supply supply' : Supply) :
    ((∃ t, ((Condition.compute { c with assumeAsserts := true } name body g).runFresh.run
        supply).1 = .ok t) ↔
      ∃ t, ((Condition.compute { c with assumeAsserts := false } name body g).runFresh.run
        supply').1 = .ok t) ∧
    ∀ t t', ((Condition.compute { c with assumeAsserts := true } name body g).runFresh.run
        supply).1 = .ok t →
      ((Condition.compute { c with assumeAsserts := false } name body g).runFresh.run
        supply').1 = .ok t' →
      ∀ I : Interp, t.Valid c.scope I ↔ t'.Valid c.scope I := by
  have hexact : ∀ {flag : Bool} {supply : Supply} {t : Term},
      ((Condition.compute { c with assumeAsserts := flag } name body g).runFresh.run
        supply).1 = .ok t →
      ∀ I : Interp, t.Valid c.scope I ↔ (Machine.withoutCalls c.scope I).Safe false body g :=
    fun {flag _ _} hok I => (encodes_compute (c := { c with assumeAsserts := flag }) hth hs hsep
      hbody name).of_runFresh hok (Machine.withoutCalls c.scope I)
  refine ⟨?_, fun t t' ht ht' I => (hexact ht I).trans (hexact ht' I).symm⟩
  -- What a command needs in order to be encoded does not depend on the flag.
  rw [(succeeds_compute name body g).of_runFresh, (succeeds_compute name body g).of_runFresh]
  exact Iff.rfl

/-- A boolean is asserted before and after the number is forgotten. -/
def assertedTwice : Body :=
  [.assert (.var "b"), .havoc ["n"], .assert (.var "b")]

theorem assertedTwice_wellTyped : assertedTwice.WellTyped sampleScope := by
  have hb : HasType sampleScope [] (.var "b") .bool := .var rfl
  intro cmd hcmd
  simp only [assertedTwice, mem_cons, not_mem_nil, or_false] at hcmd
  rcases hcmd with rfl | rfl | rfl
  · exact ⟨hb, by unfold Expr.Plain; decide⟩
  · exact fun x hx => ⟨.int, by rw [mem_singleton.mp hx]; rfl⟩
  · exact ⟨hb, by unfold Expr.Plain; decide⟩

theorem assumed_asserts_agree_sample : ∃ t t',
    ((Condition.compute { sampleCondition with assumeAsserts := true } "r" assertedTwice
      (.ofEdges 3 (some 0) [(0, 1), (1, 2)])).runFresh.run {}).1 = .ok t ∧
    ((Condition.compute { sampleCondition with assumeAsserts := false } "r" assertedTwice
      (.ofEdges 3 (some 0) [(0, 1), (1, 2)])).runFresh.run {}).1 = .ok t' ∧
    (t.Valid sampleScope .trees ↔ t'.Valid sampleScope .trees) := by
  have hagree := assumed_asserts_agree (c := sampleCondition) Theory.advances_standard
    sampleScope_plainNames sampleScope_separated assertedTwice_wellTyped "r"
    (.ofEdges 3 (some 0) [(0, 1), (1, 2)]) {} {}
  have hok : ((Condition.compute { sampleCondition with assumeAsserts := true } "r" assertedTwice
      (.ofEdges 3 (some 0) [(0, 1), (1, 2)])).runFresh.run {}).1.isOk = true := by decide +kernel
  rcases exists_ok_of_isOk hok with ⟨t, ht⟩
  rcases hagree.1.mp ⟨t, ht⟩ with ⟨t', ht'⟩
  exact ⟨t, t', ht, ht', hagree.2 t t' ht ht' .trees⟩

end Assertions

end Vouch
