import Vouch.Proofs.Condition.Computing
import Vouch.Proofs.Term.Background

/-!
# The Axioms of a Condition Are True

The prover is given a condition together with every axiom that its terms carry. Were one
of them false, or were two of them to contradict each other, any condition could be
proved from them.

## Main definitions

* `Scope.Linked`: The formula of each boolean is the one its value calls for.

## Theorems

* `background_axioms_hold`: Then all axioms of a condition hold at once, for all values
  of the variables and of their versions.
-/

namespace Vouch

open Term Structure

/-- The formula of each boolean, and of each of its versions, holds exactly when
    its value is the true one. -/
def Scope.Linked (s : Scope) (S : Structure) (E : Env S.Value) : Prop :=
  ∀ N y, s.Version N y .bool → (E.truth y ↔ E.value (valueName y) = S.bool true)

theorem Scope.exists_linked (s : Scope) (S : Structure) (value : String → S.Value) :
    ∃ E : Env S.Value, E.value = value ∧ s.Linked S E :=
  ⟨{ value, truth := fun y => value (valueName y) = S.bool true }, rfl, fun _ _ _ => Iff.rfl⟩

theorem Term.Links.holds {S : Structure} {x : String} {link : Term} (h : Links x link)
    (E : Env S.Value) :
    S.Holds link E ↔ (E.truth x ↔ E.value (valueName x) = S.bool true) := by
  rcases h.parts with ⟨f, e, v, l, hcs, hf, hhead, hcs', hv, hl, _⟩
  have he : S.Holds e E ↔ E.value (valueName x) = S.bool true := by
    rw [holds_operator hhead (by simp), hcs']
    simp [Structure.states, values_var hv, values_literal hl, Structure.literal]
  rw [holds_operator h.head (by simp), hcs]
  simp [Structure.states, holds_var hf, he]

theorem Subst.Respects.carries {A : Term → Prop} {M : Layer → String → Prop} {w : Unit}
    {σ : Subst} (h : σ.Respects M (fun _ _ => Term.Carries A) w) : σ.Carries A :=
  fun n r hr => (h n r hr).choose_spec.2

section Condition

-- The axioms of the theory are of the kind, and so are the links of declared
-- booleans and of their versions.
variable {A : Term → Prop} {c : Condition} (hth : c.theory.Attaches A)
  (hlink : ∀ N y, c.scope.Version N y .bool → ∀ link, Links y link → A link)
include hth hlink

theorem Condition.upholds_carries :
    c.Upholds (Regime.ofPairs (VarTerms.PairOf A) fun _ => True).tandem (fun _ => True)
      (fun _ => True) (fun y _ T => ∃ N, c.scope.Version N y T) (fun _ _ => True) (fun _ _ => True)
      fun _ _ _ => Carries A where
  toUpholds := Encoding.upholds_carries hth fun y hy => hlink _ y hy.choose_spec
  scope hx := ⟨0, Scope.version_of_varType? hx 0⟩
  version hx := (gives_name _).leaves.versions hx
  value _ := ⟨trivial, rfl⟩
  formula _ := ⟨trivial, rfl⟩
  subst ht hσ := (ht.subst (Subst.Respects.carries hσ)).leaves.copies
  renew ht _ hcs hσ := by
    -- Only the right side of an equation is renewed, and substitution keeps what it
    -- carries.
    have hl := ht.operand (hcs ▸ List.mem_cons_self)
    have hr := ht.operand (hcs ▸ List.mem_cons_of_mem _ List.mem_cons_self)
    refine (yields_bind (yields_lift (hr.subst (Subst.Respects.carries hσ)).leaves)
      fun _ r' _ hr' => ?_).beside
    exact yields_lift (ht.withChildren (by simp [hl, hr'])).leaves

theorem keeps_compute (name : String) (body : Body) (g : FlowGraph) :
    Keeps (VarTerms.PairOf A) (c.compute name body g) (Carries A) := by
  have hcarries := Condition.upholds_carries hth hlink
  refine (yields_compute hcarries (fun _ _ _ _ => ?_) (fun _ => trivial) name g).yields.keeps
  exact Expr.spelled_of_names fun _ _ => trivial

end Condition

/-- The axioms that conditions are sent with are consistent and conservative.
    There are standard structures, and in each of them, for all values of the
    variables and their versions, every axiom that a condition depends on holds.
    So a condition that some values refute is still refuted with its axioms
    assumed. -/
theorem background_axioms_hold :
    (∃ S : Structure, S.Standard) ∧
      ∀ S : Structure, S.Standard → ∀ (c : Condition) (name : String) (body : Body) (g : FlowGraph)
        (supply : Supply) (vc : Term), c.theory = .standard →
        ((c.compute name body g).runFresh.run supply).1 = .ok vc →
        (∀ value : String → S.Value, ∃ E : Env S.Value, E.value = value ∧ c.scope.Linked S E) ∧
        (∀ E, c.scope.Linked S E → ∀ a ∈ vc.collectAxioms.items, S.Holds a E) ∧
        ((∃ E, c.scope.Linked S E ∧ ¬ S.Holds vc E) →
          ∃ E, (∀ a ∈ vc.collectAxioms.items, S.Holds a E) ∧ ¬ S.Holds vc E) := by
  refine ⟨⟨Structure.trees, standard_trees⟩, ?_⟩
  intro S hS c name body g supply vc hth hok
  have hattaches : c.theory.Attaches fun a => ∀ E, c.scope.Linked S E → S.Holds a E := by
    rw [hth]
    exact hS.attaches fun a ha _ E _ => ha E
  have hlink : ∀ N y, c.scope.Version N y .bool → ∀ link, Links y link →
      ∀ E, c.scope.Linked S E → S.Holds link E :=
    fun N y hy link h E hE => (h.holds E).mpr (hE N y hy)
  have hcarries := (keeps_compute hattaches hlink name body g).of_runFresh hok
  have htrue : ∀ E, c.scope.Linked S E → ∀ a ∈ vc.collectAxioms.items, S.Holds a E :=
    fun E hE a ha => hcarries.collectAxioms a ha E hE
  refine ⟨c.scope.exists_linked S, htrue, ?_⟩
  rintro ⟨E, hE, hnot⟩
  exact ⟨E, htrue E hE, hnot⟩

/-- A boolean, and a table of booleans. -/
def tableScope : Scope :=
  { globals := .ofList [("b", .bool), ("m", .map [.int, .int] .bool)] }

/-- Store the boolean in the table, and assert what is there. -/
def tableBody : Body :=
  [.assign "m" (.update (.var "m") [.int 1, .int 2] (.var "b")),
    .assert (.select (.var "m") [.int 1, .int 2])]

/-- The condition that a stored boolean holds comes with the two axioms of a map
    with two indices, the link of the boolean and the axiom of truth values. -/
theorem background_axioms_hold_table : ∃ vc,
    ((Condition.compute { theory := .standard, scope := tableScope } "r" tableBody
      (.ofEdges 2 (some 0) [(0, 1)])).runFresh.run {}).1 = .ok vc ∧
    vc.collectAxioms.length = 4 ∧ Structure.trees.Standard ∧
    ∀ value : String → Tree, ∃ E : Env Tree, E.value = value ∧
      ∀ a ∈ vc.collectAxioms.items, Structure.trees.Holds a E := by
  have hcount : (((Condition.compute { theory := .standard, scope := tableScope } "r" tableBody
      (.ofEdges 2 (some 0) [(0, 1)])).runFresh.run {}).1.toOption.map
        (·.collectAxioms.length)) = some 4 := by
    decide +kernel
  cases hok : ((Condition.compute { theory := .standard, scope := tableScope } "r" tableBody
      (.ofEdges 2 (some 0) [(0, 1)])).runFresh.run {}).1 with
  | error err =>
    rw [hok] at hcount
    cases hcount
  | ok vc =>
    rw [hok] at hcount
    obtain ⟨hlinked, htrue, _⟩ := background_axioms_hold.2 Structure.trees
      standard_trees _ _ _ _ _ vc rfl hok
    refine ⟨vc, rfl, Option.some.inj hcount, standard_trees, fun value => ?_⟩
    rcases hlinked value with ⟨E, hvalue, hE⟩
    exact ⟨E, hvalue, htrue E hE⟩

end Vouch
