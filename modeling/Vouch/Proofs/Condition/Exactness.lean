import Vouch.Proofs.Condition.Assumptions

/-!
# Verification Conditions Are Exact

A condition that was computed is valid exactly if no execution along the graph reaches
an assertion that does not hold. Names have to stay apart for that, but nothing is
assumed about whether it can be computed.

## Theorems

* `encodes_compute`: Conditions are exact, whichever way they are computed.
* `weakest_condition_exact`: Backwards.
* `strongest_condition_exact`: Forwards, where also each description is exact.
-/

namespace Vouch

open List Term

section Compute

variable {c : Condition} {body : Body} {g : FlowGraph} {W : Stock} (hth : c.theory.Advances)
  (hs : c.scope.PlainNames) (hsep : c.scope.Separated) (hbody : body.WellTyped c.scope)
include hth hs hsep hbody

/-- A condition is valid exactly if nothing fails. -/
theorem encodes_compute (name : String) : Encodes W (c.compute name body g) fun _ t =>
    ∀ M : Machine c.scope, t.Valid c.scope M.interp ↔ M.Safe false body g := by
  have hnone : ∀ t ∈ ([] : List Term), FreeIn (c.scope.NameOf fun _ => False) t := by simp
  refine (encodes_compute_under hth hs hsep hbody hnone (by simp) name).mono fun _ t _ h M => ?_
  have hvalid : t.ValidUnder c.scope M.interp [] ↔ t.Valid c.scope M.interp := by
    simp [ValidUnder, Valid]
  rw [← hvalid, h M, Machine.safe_iff_not_fails]
  refine forall₂_congr fun v a => imp_congr_right fun _ => ?_
  -- Without assumptions every state is granted.
  rcases Scope.exists_shows hs hsep a with ⟨ρ, hρ, ha⟩
  have hgrants : M.Grants [] a := ⟨ρ, hρ, ha, by simp⟩
  simp [hgrants]

theorem descriptions_exact (hsize : g.size = body.length) {order : List Nat}
    (horder : g.Sorted order) {supply : Supply} {d : Descriptions}
    (hok : ((c.descriptions body g order).runFresh.run supply).1 = .ok d) {v : Nat}
    (hv : v < g.size) : ∃ pre, d.arrivals.lookup v = some pre ∧
      ∀ (M : Machine c.scope) (a : M.St),
        M.Possible pre a ↔ M.Arrives c.assumeAsserts body g v a := by
  have hdesc : Encodes (Stock.empty supply.nextName) (c.descriptions body g order) fun _ d =>
      ∃ pre, d.arrivals.lookup v = some pre ∧ ∀ (M : Machine c.scope) (a : M.St),
        M.Possible pre a ↔ M.Arrives c.assumeAsserts body g v a := by
    refine (encodes_descriptions hth hs hsep hbody hsize horder).mono fun X d _ hd => ?_
    rcases hd.arrivals.found ((horder.complete v).mpr hv) with ⟨pre, hlookup, hpre⟩
    exact ⟨pre, hlookup, hpre.possible⟩
  exact hdesc.of_runFresh hok

end Compute

section Sample

/-- A boolean and a number. -/
def sampleScope : Scope :=
  { globals := .ofList [("b", .bool), ("n", .int)] }

/-- Forget the boolean, assume it, change the number, and assert both. -/
def sampleBody : Body :=
  [.havoc ["b"], .assume (.var "b"), .assign "n" (.binary .add (.var "n") (.int 1)),
    .assert (.binary .and (.var "b") (.binary .lt (.int 0) (.var "n")))]

/-- One command after the other. -/
def sampleGraph : FlowGraph :=
  .ofEdges 4 (some 0) [(0, 1), (1, 2), (2, 3)]

/-- Conditions over the sample's variables. -/
def sampleCondition : Condition :=
  { theory := .standard, scope := sampleScope }

theorem sampleScope_plainNames : sampleScope.PlainNames :=
  Scope.plainNames_of_keys (by decide)

theorem sampleScope_separated : sampleScope.Separated :=
  Scope.separated_of_keys sampleScope_plainNames (by decide)

theorem sampleBody_wellTyped : sampleBody.WellTyped sampleScope := by
  have hb : HasType sampleScope [] (.var "b") .bool := .var rfl
  have hn : HasType sampleScope [] (.var "n") .int := .var rfl
  have hadd : HasType sampleScope [] (.binary .add (.var "n") (.int 1)) .int :=
    .binary (T := .int) rfl hn .int
  have hlt : HasType sampleScope [] (.binary .lt (.int 0) (.var "n")) .bool :=
    .binary (T := .int) rfl .int hn
  have hand : HasType sampleScope [] (.binary .and (.var "b") (.binary .lt (.int 0) (.var "n")))
      .bool := .binary (T := .bool) rfl hb hlt
  intro cmd hcmd
  simp only [sampleBody, mem_cons, not_mem_nil, or_false] at hcmd
  rcases hcmd with rfl | rfl | rfl | rfl
  · exact fun x hx => ⟨.bool, by rw [mem_singleton.mp hx]; rfl⟩
  · exact ⟨hb, by unfold Expr.Plain; decide⟩
  · refine ⟨by simp, fun p hp => ⟨.int, ?_⟩⟩
    rw [mem_singleton.mp hp]
    exact ⟨rfl, hadd, by unfold Expr.Plain; decide⟩
  · exact ⟨hand, by unfold Expr.Plain; decide⟩

theorem sample_computes (method : Method) : ∃ t,
    ((Condition.compute { sampleCondition with method } "r" sampleBody
      sampleGraph).runFresh.run {}).1 = .ok t :=
  exists_ok_of_isOk (by cases method <;> decide +kernel)

end Sample

section Exact

variable {c : Condition} {body : Body} {g : FlowGraph} (hth : c.theory.Advances)
  (hs : c.scope.PlainNames) (hsep : c.scope.Separated) (hbody : body.WellTyped c.scope)

include hth hs hsep hbody in
/-- A weakest condition is valid in an interpretation exactly if no execution
    along the graph, whatever state it starts in and whatever values it is given
    by `havoc`, reaches an assertion that does not hold. -/
theorem weakest_condition_exact {name : String} {supply : Supply} {t : Term}
    (hok : ((Condition.compute { c with method := .wp } name body g).runFresh.run supply).1 = .ok t)
    (M : Machine c.scope) : t.Valid c.scope M.interp ↔ M.Safe false body g :=
  (encodes_compute (c := { c with method := .wp }) hth hs hsep hbody name).of_runFresh hok M

theorem weakest_condition_exact_sample : ∃ t,
    ((Condition.compute { sampleCondition with method := .wp } "r" sampleBody
      sampleGraph).runFresh.run {}).1 = .ok t ∧
    (t.Valid sampleScope Interp.trees ↔
      (Machine.withoutCalls sampleScope .trees).Safe false sampleBody sampleGraph) := by
  rcases sample_computes .wp with ⟨t, ht⟩
  exact ⟨t, ht, weakest_condition_exact (c := sampleCondition) Theory.advances_standard
    sampleScope_plainNames sampleScope_separated sampleBody_wellTyped ht
    (Machine.withoutCalls sampleScope .trees)⟩

include hth hs hsep hbody in
/-- The condition computed forwards is as exact as the one computed backwards. In
    addition every node has a description, and the states it is possible of are
    the ones that executions arrive in at the node. -/
theorem strongest_condition_exact {name : String} {supply : Supply} {t : Term}
    (hok : ((Condition.compute { c with method := .sp } name body g).runFresh.run supply).1 =
      .ok t) :
    (∀ M : Machine c.scope, t.Valid c.scope M.interp ↔ M.Safe false body g) ∧
      ∃ order d, g.topologicalOrder? = some order ∧
        ((c.descriptions body g order).runFresh.run supply).1 = .ok d ∧
        ∀ v < g.size, ∃ pre, d.arrivals.lookup v = some pre ∧ ∀ (M : Machine c.scope) (a : M.St),
          M.Possible pre a ↔ M.Arrives c.assumeAsserts body g v a := by
  refine ⟨(encodes_compute (c := { c with method := .sp }) hth hs hsep hbody name).of_runFresh hok,
    ?_⟩
  rw [Condition.compute_eq] at hok
  split at hok
  · next hsize =>
    split at hok
    · cases hok
    · next order horder =>
      -- The descriptions come first, so a condition is only there if they are.
      rcases exists_ok_of_bind hok with ⟨d, hd⟩
      exact ⟨order, d, horder, hd, fun v hv => descriptions_exact hth hs hsep hbody hsize
        (FlowGraph.sorted_of_topologicalOrder? horder) hd hv⟩
  · cases hok

theorem strongest_condition_exact_sample : ∃ t,
    ((Condition.compute { sampleCondition with method := .sp } "r" sampleBody
      sampleGraph).runFresh.run {}).1 = .ok t ∧
    (∀ M : Machine sampleScope,
      t.Valid sampleScope M.interp ↔ M.Safe false sampleBody sampleGraph) ∧
    ∃ order d, sampleGraph.topologicalOrder? = some order ∧
      ((sampleCondition.descriptions sampleBody sampleGraph order).runFresh.run {}).1 = .ok d ∧
      ∀ v < sampleGraph.size, ∃ pre, d.arrivals.lookup v = some pre ∧
        ∀ (M : Machine sampleScope) (a : M.St),
          M.Possible pre a ↔ M.Arrives false sampleBody sampleGraph v a := by
  rcases sample_computes .sp with ⟨t, ht⟩
  exact ⟨t, ht, strongest_condition_exact (c := sampleCondition) Theory.advances_standard
    sampleScope_plainNames sampleScope_separated sampleBody_wellTyped ht⟩

end Exact

end Vouch
