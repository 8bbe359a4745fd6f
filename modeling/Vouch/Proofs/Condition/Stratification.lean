import Vouch.Proofs.Condition.Background
import Vouch.Proofs.Condition.Layering
import Vouch.Proofs.Term.Foundation

/-!
# Conditions Are Stratified

Names are what can go wrong. A substitution goes by names, so a name must not belong
to a formula in one place and to a value in another. For plain names there is only one
way to confuse them: a version of a boolean called `term` may be spelled like the value
of a variable that is called like a number.

## Main definitions

* `Scope.Wire`: The names that may occur in a condition.

## Theorems

* `conditions_stratified`: A condition, the axioms it depends on, and all of these once
  their sharing is removed are stratified, whatever types the expressions have.
-/

namespace Vouch

open Term

/-- The identifier occurs in an expression of the body, free or bound. -/
def Body.Mentions (body : Body) (x : String) : Prop :=
  ∃ command ∈ body, ∃ e ∈ command.action.exprs, x ∈ e.names

/-! ### Names -/

/-- The names that may occur in a condition, `B` being the identifiers that its
    expressions mention. -/
inductive Scope.Wire (s : Scope) (B : String → Prop) : Layer → String → Prop
  | formula {M : Nat} {y : String} : s.Version M y .bool → Wire s B .formula y
  | value {M : Nat} {y : String} {T : Ty} : s.Version M y T → Wire s B .value (valueName y)
  | mentioned {y : String} : B y → Wire s B .value (valueName y)
  | renamed {n : String} {k : Nat} : Wire s B .value n → Wire s B .value (renamedBinder n k)

section Names

variable {s : Scope} {B : String → Prop} (hs : s.PlainNames) (hsep : s.Separated)
  (hB : s.SeparatedFrom B)
include hs hsep hB

variable {n : String}

theorem Scope.Version.not_wire_value {M : Nat} (hn : s.Version M n .bool) :
    ¬ s.Wire B .value n := by
  intro hwire
  cases hwire with
  | value hy => exact hn.ne_valueName hs hsep hy rfl
  | mentioned hy =>
    rcases hn with ⟨x, hx, hn | ⟨k, _, hn⟩⟩
    · exact plainName_ne_valueName (hs x _ hx) hn.symm
    · exact hB x _ k hx hy hn.symm
  | renamed _ =>
    rcases hn with ⟨x, hx, hn | ⟨k, _, hn⟩⟩
    · exact plainName_ne_renamedBinder (hs x _ hx) hn.symm
    · exact versionName_ne_renamedBinder _ _ _ _ hn.symm

omit hs hsep hB in
theorem Scope.Wire.layer_cases {l : Layer} (h : s.Wire B l n) :
    l = .formula ∧ (∃ M, s.Version M n .bool) ∨ l = .value := by
  cases h with
  | formula hn => exact Or.inl ⟨rfl, _, hn⟩
  | _ => exact Or.inr rfl

theorem Scope.Wire.unique {k l : Layer} (h : s.Wire B k n) (h' : s.Wire B l n) : k = l := by
  rcases h.layer_cases with ⟨rfl, M, hn⟩ | rfl
  · rcases h'.layer_cases with ⟨rfl, _⟩ | rfl
    · rfl
    · exact absurd h' (hn.not_wire_value hs hsep hB)
  · rcases h'.layer_cases with ⟨rfl, M, hn⟩ | rfl
    · exact absurd h (hn.not_wire_value hs hsep hB)
    · rfl

theorem Scope.exists_spelling : ∃ N : Spelling, N.placing.Covers s ∧ N.names = s.Wire B :=
  ⟨{ names := s.Wire B
     unique := fun _ _ _ h h' => h.unique hs hsep hB h'
     renamed := fun _ _ h => .renamed h },
    ⟨fun _ _ _ h => .value h, fun _ _ h => .formula h⟩, rfl⟩

end Names

/-! ### What is sent -/

section Sent

variable {c : Condition} {body : Body} {g : FlowGraph} {name : String} {supply : Supply} {vc : Term}
  (hth : c.theory = .standard) (hs : c.scope.PlainNames) (hsep : c.scope.Separated)
  (hbody : c.scope.SeparatedFrom body.Mentions) (hfamily : supply.family = 0)
include hth hs hsep hbody hfamily

theorem Condition.exists_stock (hok : ((c.compute name body g).runFresh.run supply).1 = .ok vc) :
    ∃ (X : Stock) (N : Spelling), X.Layered ∧
      X.Fits ((c.compute name body g).runFresh.run supply).2 ∧
      N.names = c.scope.Wire body.Mentions ∧ Lies N .formula X vc := by
  rcases Scope.exists_spelling hs hsep hbody with ⟨N, hcovers, hN⟩
  have hadmits : ∀ command ∈ body, ∀ e ∈ command.action.exprs, N.placing.Admits e := by
    intro command hcommand e he
    refine Expr.spelled_of_names fun x hx => ?_
    change N.names .value (valueName x)
    rw [hN]
    exact .mentioned ⟨command, hcommand, e, he, hx⟩
  -- The axioms of the theory were there before, with identities of their own.
  rcases exists_foundation supply.nextName with ⟨B, hnames, hB, hfar, haxioms⟩
  have hfits : B.Fits supply :=
    ⟨fun t ht h => absurd (h.trans hfamily) (hfar t ht).1, hnames.symm⟩
  rcases (N.suits.yields_condition hcovers hadmits name g).exists_of_runFresh
    ⟨hfits, hB.placed (hth ▸ Theory.rests_standard haxioms)⟩ hok with ⟨X, _, ⟨hXfits, hX⟩, hlies⟩
  exact ⟨X, N, hX.layered, hXfits, hN, hlies.mem, hlies.fits.1, hlies.fits.2⟩

/-- Everything that is sent to the prover is stratified: the condition of a body, the
    axioms that it depends on, and what becomes of some of these when their sharing
    is removed, with the definitions and axioms that go with it. -/
theorem conditions_stratified
    (hok : ((c.compute name body g).runFresh.run supply).1 = .ok vc) :
    (∀ t ∈ vc :: vc.collectAxioms.items, t.Stratified ∧ t.layer = .formula) ∧
      ∀ (ts : List Term) (later : Supply), ts ⊆ vc :: vc.collectAxioms.items →
        ((c.compute name body g).runFresh.run supply).2.Advances later →
        ∀ t ∈ ((c.theory.unshareAll ts).run later).1.sent, t.Stratified ∧ t.layer = .formula := by
  rcases Condition.exists_stock hth hs hsep hbody hfamily hok with ⟨X, N, hX, hfits, _, hvc⟩
  have hsent : ∀ t ∈ vc :: vc.collectAxioms.items, t ∈ X.terms ∧ t.layer = .formula :=
    List.forall_mem_cons.mpr ⟨⟨hvc.mem, hvc.layer⟩, (hX.carries hvc.mem).collectAxioms⟩
  refine ⟨fun t ht => ⟨hX.stratified (hsent t ht).1, (hsent t ht).2⟩, ?_⟩
  intro ts later hts hlater
  have hadvances : c.theory.Advances := hth ▸ Theory.advances_standard
  rcases (hX.raise later.nextName).builds_unshareAll hadvances (fun t ht => hsent t (hts ht))
    later (Stock.fits_raise hfits hlater).2 with ⟨_, _, _, h⟩
  exact h

end Sent

/-- Store a boolean under a key that is a boolean too, and assert of all numbers that
    those with an entry are true. None of this has a type. -/
def untypedBody : Body :=
  [.havoc ["b"], .assign "m" (.update (.var "m") [.int 1, .var "b"] (.var "b")),
    .assert (.all [⟨"i", .int⟩]
      (.binary .implies (.select (.var "m") [.var "i", .var "b"]) (.var "i"))),
    .assert (.select (.var "m") [.int 1, .var "b"])]

/-- One command after the other. -/
def untypedGraph : FlowGraph :=
  .ofEdges 4 (some 0) [(0, 1), (1, 2), (2, 3)]

/-- Conditions over a table, going forwards. -/
def tableCondition : Condition :=
  { theory := .standard, scope := tableScope, method := .sp }

/-- The condition of a body that is not well typed has an assumption that is shared.
    It is sent with the definition of this and four axioms, in layers. -/
theorem conditions_stratified_untyped : ∃ vc supply,
    (tableCondition.compute "r" untypedBody untypedGraph).runFresh.run {} = (.ok vc, supply) ∧
    vc.collectAxioms.length = 4 ∧
    ((Theory.standard.unshareAll [vc]).run supply).1.definitions.length = 1 ∧
    (∀ t ∈ vc :: vc.collectAxioms.items, t.Stratified ∧ t.layer = .formula) ∧
    ∀ t ∈ ((Theory.standard.unshareAll [vc]).run supply).1.sent,
      t.Stratified ∧ t.layer = .formula := by
  have hplain : tableScope.PlainNames := Scope.plainNames_of_keys (by decide)
  have hkeys : ∀ x ∈ tableScope.locals.keys ++ tableScope.globals.keys,
      x ≠ "term" ∧ x ≠ "term$" := by decide
  have hcounts : ((tableCondition.compute "r" untypedBody untypedGraph).runFresh.run
      {}).1.toOption.map (fun vc => (vc.collectAxioms.length,
        ((Theory.standard.unshareAll [vc]).run ((tableCondition.compute "r" untypedBody
          untypedGraph).runFresh.run {}).2).1.definitions.length)) = some (4, 1) := by
    decide +kernel
  rcases hrun : (tableCondition.compute "r" untypedBody untypedGraph).runFresh.run {} with
    ⟨result, supply⟩
  rw [hrun] at hcounts
  cases result with
  | error err => cases hcounts
  | ok vc =>
    have hlengths := Prod.mk.inj (Option.some.inj hcounts)
    have hstratified := conditions_stratified (c := tableCondition) rfl hplain
      (Scope.separated_of_keys hplain hkeys) (Scope.separatedFrom_of_keys hplain hkeys _) rfl
      (congrArg Prod.fst hrun)
    rw [hrun] at hstratified
    exact ⟨vc, supply, rfl, hlengths.1, hlengths.2, hstratified.1,
      hstratified.2 [vc] supply (by simp) ⟨rfl, le_rfl, le_rfl⟩⟩

/-- Where the version of a boolean is spelled like the value of a variable, the value
    is put for the version, and what is left of the condition is a number. -/
example : ((Condition.compute
    { theory := .standard, scope := { globals := .ofList [("term", .bool), ("0", .int)] } } "r"
    [.assign "0" (.int 5), .havoc ["term"], .assert (.var "term")]
    (.ofEdges 3 (some 0) [(0, 1), (1, 2)])).runFresh.run {}).1.toOption.map Term.layer =
      some .value := by
  decide +kernel

end Vouch
