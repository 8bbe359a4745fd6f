import Vouch.Proofs.Condition.Parallel
import Vouch.Proofs.Verify.Identifiers
import Vouch.Proofs.Verify.Methods

/-!
# Routines on Their Own

Identities and numbers in terms say how much was built before. Here the terms are
compared with those that are built first of all, from a new supply, and they are copies
of them. One change of numbers does it for all terms that a question is about.

## Main definitions

* `Supply.Ahead`: A supply is ahead of another.
* `Program.Legible`: No name of the program, or that its binders may be renamed to,
  looks like a generated one.
* `standalone`: The verdict that a routine gets on its own.

## Theorems

* `Program.legible_of_plain`: Programs whose names are plain are legible.
* `Program.Legible.standalone_eq`: Whenever a routine is checked, it gets that verdict.
-/

namespace Vouch

open List Term

/-- The second term is the first with other numbers in its names, and with other
    identities. -/
def Renumbering.Copies (ρ : Renumbering) (t t' : Term) : Prop :=
  ∃ φ : Relabelling, φ.toRenumbering = ρ ∧ φ.Copies t t'

theorem Renumbering.Copies.collectAxioms {ρ : Renumbering} {t t' : Term} (h : ρ.Copies t t') :
    Forall₂ ρ.Copies t.collectAxioms.items t'.collectAxioms.items := by
  rcases h with ⟨φ, hφ, rfl⟩
  rw [items_collectAxioms_relabel, forall₂_map_right_iff]
  exact forall₂_same.mpr fun a _ => ⟨φ, hφ, rfl⟩

/-! ### Supplies that are ahead -/

/-- The identity as a supply draws it that is ahead by the given number of nodes.
    Other families have other supplies. -/
def NodeId.ahead (d : Nat) (id : NodeId) : NodeId :=
  if id.family = 0 then ⟨0, id.index + d⟩ else id

theorem NodeId.ahead_injective (d : Nat) : Function.Injective (NodeId.ahead d) := by
  rintro ⟨f, i⟩ ⟨g, j⟩ h
  unfold NodeId.ahead at h
  by_cases hf : f = 0
  · by_cases hg : g = 0
    · simp only [hf, hg, if_true, NodeId.mk.injEq, true_and] at h
      rw [hf, hg, Nat.add_right_cancel h]
    · simp only [hf, hg, if_true, if_false, NodeId.mk.injEq] at h
      exact absurd h.1.symm hg
  · by_cases hg : g = 0
    · simp only [hf, hg, if_true, if_false, NodeId.mk.injEq] at h
      exact h.1.elim
    · simpa only [hf, hg, if_false] using h

/-- Change the numbers in names, and move the identities. -/
def Renumbering.moving (ρ : Renumbering) (d : Nat) : Relabelling where
  toRenumbering := ρ
  node := NodeId.ahead d
  node_injective := NodeId.ahead_injective d

/-- The second supply is ahead of the first by a number of nodes and a number of
    names. -/
structure Supply.Ahead (d k : Nat) (s s' : Supply) : Prop where
  family : s.family = 0
  family' : s'.family = 0
  nodes : s'.nextNode = s.nextNode + d
  names : s'.nextName = s.nextName + k

theorem Supply.ahead_new {s : Supply} (h : s.family = 0) :
    Supply.Ahead s.nextNode s.nextName {} s :=
  ⟨rfl, h, (Nat.zero_add _).symm, (Nat.zero_add _).symm⟩

namespace Renumbering

variable (ρ : Renumbering) (d k : Nat)

theorem draws_moving : (ρ.moving d).Draws (Supply.Ahead d k) where
  node hs := by
    rw [hs.family, hs.family', hs.nodes]
    rfl
  next hs := ⟨hs.family, hs.family', by simp only [hs.nodes]; omega, hs.names⟩

theorem steady_moving : Theory.standard.Steady (ρ.moving d) (Supply.Ahead d k) :=
  Theory.steady_standard fun _ hfamily _ => if_neg hfamily

end Renumbering

theorem Scope.counts_shift (s : Scope) (d k : Nat) :
    ((s.shift k).moving d).Counts (Supply.Ahead d k) s where
  formula hu hx := by
    rw [hu.names]
    exact s.shift_versionName (Or.inl hx) k _
  value hu hx := by
    rw [hu.names, valueName_versionName, valueName_versionName]
    exact s.shift_versionName (Or.inr ⟨_, _, hx, rfl⟩) k _
  next hu := ⟨hu.family, hu.family', hu.nodes, by simp only [hu.names]; omega⟩

theorem Program.alongside_encodeAxioms {φ : Relabelling} {K : Supply → Supply → Prop}
    {c : Encoding} (hth : c.theory.Steady φ K) (hK : φ.Draws K) (hφ : φ.Respects c.scope) :
    ∀ {es : List Expr}, (∀ e ∈ es, ∀ x ∈ e.names, φ.name (valueName x) = valueName x) →
    ∀ {bag bag' : AxiomBag}, bag.Matches φ bag' →
    Alongside φ K (encodeAxioms c es bag) (encodeAxioms c es bag') (AxiomBag.Matches φ)
  | [], _, _, _, hbag => alongside_pure hbag
  | e :: es, hes, _, _, hbag => by
    refine alongside_bind (alongside_encode hth hK hφ e .formula [] (hes e mem_cons_self)) ?_
    rintro t _ rfl
    exact alongside_encodeAxioms hth hK hφ (fun e' he' => hes e' (mem_cons_of_mem _ he'))
      ((hbag.collect t).insert t)

/-! ### Supplies that are left -/

section Left

/-- A later state of a supply, beside itself. -/
def Supply.Left (s t t' : Supply) : Prop :=
  t' = t ∧ s.Advances t

namespace Relabelling

theorem respects_same (s : Scope) : same.Respects s :=
  ⟨fun _ => rfl, fun _ => rfl⟩

theorem draws_same (s : Supply) : same.Draws s.Left where
  node ht := by
    rw [ht.1]
    rfl
  next ht := ⟨by rw [ht.1], ht.2.family, Nat.le_succ_of_le ht.2.node, ht.2.name⟩

theorem counts_same (s : Supply) (scope : Scope) : same.Counts s.Left scope where
  formula ht _ := by
    rw [ht.1]
    rfl
  value ht _ := by
    rw [ht.1]
    rfl
  next ht := ⟨by rw [ht.1], ht.2.family, ht.2.node, Nat.le_succ_of_le ht.2.name⟩

theorem steady_same (s : Supply) : Theory.standard.Steady same s.Left :=
  Theory.steady_standard fun _ _ _ => rfl

end Relabelling

theorem Alongside.advances {α : Type} {R : α → α → Prop} {m : Encode α} {s : Supply}
    (h : Alongside .same s.Left m m R) : s.Advances (m.runFresh.run s).2 :=
  (h { supply := s } { supply := s } ⟨⟨rfl, rfl, le_rfl, le_rfl⟩, fun _ => rfl⟩).2.supply.2

theorem Verifier.advances_condition (style : ConditionStyle) (s : Scope) (r : Routine)
    (supply : Supply) : supply.Advances ((condition style s r).run supply).2 := by
  unfold condition
  cases FlowGraph.ofBody r.body with
  | error e => exact ⟨rfl, le_rfl, le_rfl⟩
  | ok g =>
    let c : Condition := { style with theory := .standard, scope := s.enter r }
    exact (alongside_compute (c := c) (Relabelling.steady_same supply)
      (Relabelling.draws_same supply) (Relabelling.respects_same _)
      (Relabelling.counts_same supply _) r.name (fun _ _ => rfl) _).advances

theorem Program.advances_axiomTerms (p : Program) (supply : Supply) :
    supply.Advances (p.axiomTerms.run supply).2 := by
  let c : Encoding := { theory := .standard, scope := .ofProgram p }
  have halong : Alongside .same supply.Left
      (encodeAxioms c p.axioms {}) (encodeAxioms c p.axioms {}) (AxiomBag.Matches _) :=
    alongside_encodeAxioms (Relabelling.steady_same supply) (Relabelling.draws_same supply)
      (Relabelling.respects_same _) (fun _ _ _ _ => rfl) AxiomBag.matches_empty
  exact halong.advances

end Left

namespace Program

/-! ### Legible programs -/

/-- No name that matters for the routine looks like a generated one, and neither does
    one that its binders may be renamed to. -/
structure Legible (p : Program) (r : Routine) : Prop where
  formula : ∀ v ∈ p.globals ++ r.declared, v.ty = .bool →
    ¬ ((Scope.ofProgram p).enter r).Generated v.name
  value : ∃ N, Expr.VariantClosed N ∧ p.Spelled N (fun _ => True) r ∧
    ∀ x, N x → ¬ ((Scope.ofProgram p).enter r).Generated (valueName x)

variable {p : Program} {r r' : Routine}

theorem legible_of_plain (h : p.Spelled PlainName (fun _ => True) r)
    (hterm : ∀ v ∈ p.globals ++ r.declared, v.ty = .bool → v.name ≠ "term" ∧ v.name ≠ "term$") :
    p.Legible r := by
  have hplain : ((Scope.ofProgram p).enter r).PlainNames := fun x T hx => h.of_varType? hx
  have hspelled : p.Spelled Unnumbered (fun _ => True) r :=
    h.mono (fun _ => unnumbered_of_plainName) fun _ _ => trivial
  refine ⟨fun v hv _ => Scope.not_generated_of_plainName ?_, Unnumbered, ?_, hspelled,
    fun x hx => Scope.not_generated_valueName hplain (fun y hy => ?_) hx⟩
  · exact (mem_append.mp hv).elim (h.globals v) (h.declared v)
  · rintro n _ hn ⟨k, rfl⟩
    exact hn.mark k
  · rcases exists_declaration hy with ⟨v, hv, rfl, hbool⟩
    exact hterm v hv hbool

theorem Legible.of_routines (h : p.Legible r) (rs : List Routine) :
    Legible { p with routines := rs } r := by
  rcases h.value with ⟨N, hN, hspelled, hvalue⟩
  exact ⟨h.formula, N, hN, ⟨hspelled.globals, hspelled.declared, hspelled.axioms,
    hspelled.requires, hspelled.ensures, hspelled.body⟩, hvalue⟩

/-! ### Copies of the first terms -/

section Copies

variable (h : p.Legible r) (k : Nat)
include h

theorem Legible.respects (d : Nat) :
    ((((Scope.ofProgram p).enter r).shift k).moving d).Respects ((Scope.ofProgram p).enter r) := by
  rcases h.value with ⟨N, _, hspelled, hvalue⟩
  refine ⟨fun hx => ?_, fun hx => ?_⟩
  · rcases exists_declaration hx with ⟨v, hv, rfl, hbool⟩
    exact Scope.shift_of_not_generated (h.formula v hv hbool) k
  · exact Scope.shift_of_not_generated (hvalue _ (hspelled.of_varType? hx)) k

theorem Legible.respects_globals (d : Nat) :
    ((((Scope.ofProgram p).enter r).shift k).moving d).Respects (Scope.ofProgram p) := by
  rcases h.value with ⟨N, _, hspelled, hvalue⟩
  refine ⟨fun hx => ?_, fun hx => ?_⟩
  · rcases exists_global hx with ⟨v, hv, rfl, hbool⟩
    exact Scope.shift_of_not_generated (h.formula v (mem_append_left _ hv) hbool) k
  · rcases exists_global hx with ⟨v, hv, rfl, _⟩
    exact Scope.shift_of_not_generated (hvalue _ (hspelled.globals v hv)) k

theorem Legible.mentions (hr : (Scope.ofProgram p).prepare r = .ok r') {x : String}
    (hx : r'.body.Mentions x) :
    (((Scope.ofProgram p).enter r).shift k).name (valueName x) = valueName x := by
  rcases h.value with ⟨N, hN, hspelled, hvalue⟩
  rcases hx with ⟨c, hc, e, he, hx⟩
  exact Scope.shift_of_not_generated
    (hvalue x (((hspelled.prepare hN hr c hc).exprs e he).of_mem_names hx)) k

variable {supply supply' : Supply}

theorem Legible.exists_condition_copy (hr : (Scope.ofProgram p).prepare r = .ok r')
    {style : ConditionStyle} (hfamily : supply.family = 0) {vc : Term}
    (hvc : (Verifier.condition style (.ofProgram p) r').run supply = (.ok vc, supply')) :
    ∃ vc₀, ((Verifier.condition style (.ofProgram p) r').run {}).1 = .ok vc₀ ∧
      (((Scope.ofProgram p).enter r).shift supply.nextName).Copies vc₀ vc := by
  have henter : (Scope.ofProgram p).enter r' = (Scope.ofProgram p).enter r := by
    rw [Scope.eq_of_prepare hr]
    rfl
  rcases Verifier.exists_of_condition (congrArg Prod.fst hvc) with ⟨g, hg, hcompute⟩
  rw [henter] at hcompute
  let c : Condition := { style with theory := .standard, scope := (Scope.ofProgram p).enter r }
  let φ := (((Scope.ofProgram p).enter r).shift supply.nextName).moving supply.nextNode
  have halong : Alongside φ (Supply.Ahead supply.nextNode supply.nextName)
      (c.compute r'.name r'.body g.cut.graph) (c.compute r'.name r'.body g.cut.graph) φ.Copies :=
    alongside_compute (Renumbering.steady_moving _ _ _) (Renumbering.draws_moving _ _ _)
      (h.respects _ _) (Scope.counts_shift c.scope _ _) r'.name (fun x hx => h.mentions _ hr hx) _
  rcases (halong.outcomes (Supply.ahead_new hfamily)).exists_of_ok hcompute with ⟨vc₀, hvc₀, hcopy⟩
  refine ⟨vc₀, ?_, φ, rfl, hcopy⟩
  rw [Verifier.condition, hg, henter]
  exact congrArg (Except.mapError VerifyError.condition) hvc₀

theorem Legible.exists_axiomTerms_copy (hfamily : supply.family = 0) {terms : List Term}
    (hterms : p.axiomTerms.run supply = (.ok terms, supply')) :
    ∃ terms₀, (p.axiomTerms.run {}).1 = .ok terms₀ ∧
      Forall₂ (((Scope.ofProgram p).enter r).shift k).Copies terms₀ terms := by
  let c : Encoding := { theory := .standard, scope := .ofProgram p }
  let φ := (((Scope.ofProgram p).enter r).shift k).moving supply.nextNode
  have hnames : ∀ e ∈ p.axioms, ∀ x ∈ e.names, φ.name (valueName x) = valueName x := by
    rcases h.value with ⟨N, _, hspelled, hvalue⟩
    intro e he x hx
    exact Scope.shift_of_not_generated (hvalue x ((hspelled.axioms e he).of_mem_names hx)) k
  have halong : Alongside φ (Supply.Ahead supply.nextNode supply.nextName)
      (encodeAxioms c p.axioms {}) (encodeAxioms c p.axioms {}) (AxiomBag.Matches φ) :=
    alongside_encodeAxioms (Renumbering.steady_moving _ _ _) (Renumbering.draws_moving _ _ _)
      (h.respects_globals _ _) hnames AxiomBag.matches_empty
  rcases exists_bag (congrArg Prod.fst hterms) with ⟨bag, rfl, hbag⟩
  rcases (halong.outcomes (Supply.ahead_new hfamily)).exists_of_ok hbag with
    ⟨bag₀, hbag₀, hmatches⟩
  refine ⟨bag₀.items, ?_, ?_⟩
  · exact congrArg (fun bag => (bag.map AxiomBag.items).mapError VerifyError.condition) hbag₀
  · rw [hmatches.items, forall₂_map_right_iff]
    exact forall₂_same.mpr fun a _ => ⟨_, rfl, rfl⟩

end Copies

end Program

/-! ### The verdict on a routine alone -/

/-- What is answered depends on assumptions and question only up to the numbers of
    generated names. -/
def Impartial (answer : List Term → Term → Option Bool) : Prop :=
  ∀ (ρ : Renumbering) {ts ts' : List Term} {t t' : Term}, Forall₂ ρ.Copies ts ts' →
    ρ.Copies t t' → answer ts t = answer ts' t'

/-- The verdict on a routine if nothing was built before its condition and nobody
    asked before. -/
def standalone (answer : List Term → Term → Option Bool) (style : ConditionStyle) (p : Program)
    (r : Routine) : Except VerifyError Verdict := do
  let prepared ← (Scope.ofProgram p).prepare r
  let axioms ← (p.axiomTerms.run {}).1
  let vc ← ((Verifier.condition style (.ofProgram p) prepared).run {}).1
  return .ofAnswer (answer (axioms ++ vc.collectAxioms.items) vc)

/-- The numbers that were drawn before change the terms and not the verdict. -/
theorem Program.Legible.standalone_eq {p : Program} {r r' : Routine} (h : p.Legible r)
    {answer : List Term → Term → Option Bool} (hanswer : Impartial answer)
    (hr : (Scope.ofProgram p).prepare r = .ok r') {style : ConditionStyle}
    {start start' supply supply' : Supply} (hstart : start.family = 0)
    (hsupply : supply.family = 0) {terms : List Term}
    (hterms : p.axiomTerms.run start = (.ok terms, start')) {vc : Term}
    (hvc : (Verifier.condition style (.ofProgram p) r').run supply = (.ok vc, supply')) :
    standalone answer style p r = .ok (.ofAnswer (answer (terms ++ vc.collectAxioms.items) vc)) := by
  rcases h.exists_condition_copy hr hsupply hvc with ⟨vc₀, hvc₀, hcopy⟩
  rcases h.exists_axiomTerms_copy supply.nextName hstart hterms with ⟨terms₀, hterms₀, hcopies⟩
  unfold standalone
  rw [hr, ← hanswer _ (rel_append hcopies hcopy.collectAxioms) hcopy]
  simp only [hterms₀, hvc₀, bind, Except.bind]
  rfl

end Vouch
