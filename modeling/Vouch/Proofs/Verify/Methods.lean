import Vouch.Proofs.Term.Background
import Vouch.Proofs.Verify.Soundness

/-!
# Verdicts Do Not Depend on the Method

A prover that misses nothing gives the same answer to both conditions, as long as the
routine leaves alone what the axioms are about. Otherwise an axiom restricts where
executions start for one of the conditions, and where they fail for the other.

## Main definitions

* `Program.InAxioms`: A variable occurs in an axiom.

## Theorems

* `methods_agree`: Both conditions are valid under the axioms, or neither is.
-/

namespace Vouch

open List Term

namespace Program

/-- The variable occurs in an axiom of the program. -/
def InAxioms (p : Program) (x : String) : Prop :=
  ∃ e ∈ p.axioms, x ∈ e.freeVars

theorem yields_encodeAxioms {World : Type} [Preorder World] {G : Regime World}
    {A : World → Term → Prop} (hA : ∀ w v a, w ≤ v → A w a → A v a) {c : Encoding} :
    ∀ {es : List Expr} {bag : AxiomBag} {w : World},
      (∀ e ∈ es, ∀ v, w ≤ v → G.Yields v (c.formula e) fun v t => A v t ∧ Carries (A v) t) →
      (∀ a ∈ bag.items, A w a) →
      G.Yields w (encodeAxioms c es bag) fun v bag => ∀ a ∈ bag.items, A v a
  | [], bag, w, _, hbag => yields_pure hbag
  | e :: es, bag, w, hes, hbag => by
    refine yields_bind (hes e mem_cons_self w le_rfl) fun v t hwv ht => ?_
    refine yields_encodeAxioms hA (fun e' he' u hvu =>
      hes e' (mem_cons_of_mem _ he') u (hwv.trans hvu)) fun a ha => ?_
    rcases AxiomBag.mem_insert ha with ha | rfl
    · exact AxiomBag.items_fill ht.2 (fun b hb => hA w v b hwv (hbag b hb)) a ha
    · exact ht.1

variable {axs : List Term} {supply : Supply}

theorem exists_bag {p : Program} (h : (p.axiomTerms.run supply).1 = .ok axs) :
    ∃ bag : AxiomBag, bag.items = axs ∧
      ((encodeAxioms { theory := .standard, scope := .ofProgram p } p.axioms {}).runFresh.run
        supply).1 = .ok bag := by
  obtain ⟨c, hc⟩ : ∃ c : Encoding, c = { theory := .standard, scope := .ofProgram p } := ⟨_, rfl⟩
  have hrun : ((encodeAxioms c p.axioms {}).runFresh.run supply).1.map AxiomBag.items =
      .ok axs := by
    rw [hc]
    exact eq_ok_of_mapError h
  rw [← hc]
  cases hbag : ((encodeAxioms c p.axioms {}).runFresh.run supply).1 with
  | error err =>
    rw [hbag] at hrun
    cases hrun
  | ok bag =>
    rw [hbag] at hrun
    exact ⟨bag, Except.ok.inj hrun, rfl⟩

theorem freeIn_axiomTerms {p : Program} (h : (p.axiomTerms.run supply).1 = .ok axs) :
    ∀ t ∈ axs, FreeIn ((Scope.ofProgram p).NameOf p.InAxioms) t := by
  rcases exists_bag h with ⟨bag, rfl, hbag⟩
  obtain ⟨c, hc⟩ : ∃ c : Encoding, c = { theory := .standard, scope := .ofProgram p } := ⟨_, rfl⟩
  obtain ⟨A, hA⟩ : ∃ A : Term → Prop, A = FreeIn (c.scope.NameOf p.InAxioms) := ⟨_, rfl⟩
  -- The axioms of operators are closed, and a link is about its variable.
  have hth : c.theory.Attaches A := by
    rw [hc, hA]
    exact Structure.standard_trees.attaches fun a _ hclosed n hn => absurd hn (hclosed n)
  have hlink : ∀ x, p.InAxioms x ∧ c.scope.varType? x = some .bool →
      ∀ link, Links x link → A link := by
    rintro x ⟨hx, hT⟩ link hl
    rw [hA]
    exact hl.freeIn ⟨x, _, hx, hT, Or.inl rfl⟩ ⟨x, _, hx, hT, Or.inr rfl⟩
  have hcarries := Encoding.upholds_carries
    (D := fun x T => p.InAxioms x ∧ c.scope.varType? x = some T) hth hlink
  have hfree := Encoding.upholds_freeIn A p.InAxioms fun x hx hT =>
    gives_linkedPair hth (hlink x ⟨hx, hT⟩)
  have hone : ∀ e ∈ p.axioms, ∀ v, () ≤ v →
      (Regime.ofPairs (VarTerms.PairOf A) fun _ => True).Yields v (c.formula e) fun _ t =>
        A t ∧ Carries A t := by
    intro e he _ _
    have hspelled : e.Spelled (fun _ => True) fun _ => True :=
      Expr.spelled_of_names fun _ _ => trivial
    have hvars : ∀ x ∈ e.freeVars, Scope.boundType? [] x = none → ∀ T,
        c.scope.varType? x = some T → p.InAxioms x ∧ c.scope.varType? x = some T :=
      fun x hx _ T hT => ⟨⟨e, he, hx⟩, hT⟩
    refine ((yields_encode hfree e .formula hspelled hvars).yields.mono fun _ t _ ht => ?_).and
      (yields_encode hcarries e .formula hspelled hvars).yields
    rw [hA]
    intro n hn
    rcases ht n hn with hn | ⟨x, hx, _⟩
    · exact hn
    · exact absurd hx not_mem_nil
  rw [← hc] at hbag
  have hitems : ∀ a ∈ bag.items, A a := (yields_encodeAxioms (A := fun _ => A)
    (fun _ _ _ _ h => h) hone (by simp)).keeps.of_runFresh hbag
  rw [hA, hc] at hitems
  exact hitems

end Program

theorem Scope.NameOf.enter {p : Program} {F : String → Prop} {n : String}
    (h : (Scope.ofProgram p).NameOf F n) (r : Routine) :
    ((Scope.ofProgram p).enter r).NameOf F n := by
  rcases h with ⟨x, T, hF, hx, hn⟩
  cases hlocal : ((Scope.ofProgram p).enter r).locals.find? x with
  | some U => exact ⟨x, U, hF, by rw [Scope.varType?, hlocal]; rfl, hn⟩
  | none => exact ⟨x, T, hF, by rw [Scope.varType?, hlocal]; exact hx, hn⟩

section Sample

/-- A table that is assumed to be true at a boolean, and a number. -/
def trustingProgram : Program where
  globals := [{ name := "b", ty := .bool }, { name := "m", ty := .map [.bool] .bool },
    { name := "n", ty := .int }]
  axioms := [.select (.var "m") [.var "b"]]

/-- Change the number in two ways, and assert what is assumed. -/
def trustingRoutine : Routine where
  name := "r"
  body := [.havoc ["n"], .assign "n" (.binary .add (.var "n") (.int 1)),
    .assert (.select (.var "m") [.var "b"])]

theorem trustingRoutine_plainNames :
    ((Scope.ofProgram trustingProgram).enter trustingRoutine).PlainNames :=
  Scope.plainNames_of_keys (by decide)

theorem trustingRoutine_wellTyped :
    trustingRoutine.body.WellTyped ((Scope.ofProgram trustingProgram).enter trustingRoutine) := by
  intro cmd hcmd
  simp only [trustingRoutine, mem_cons, not_mem_nil, or_false] at hcmd
  rcases hcmd with rfl | rfl | rfl
  · exact fun x hx => ⟨.int, by rw [mem_singleton.mp hx]; rfl⟩
  · refine ⟨by simp, fun p hp => ⟨.int, ?_⟩⟩
    rw [mem_singleton.mp hp]
    exact ⟨rfl, .binary (T := .int) rfl (.var rfl) .int, by unfold Expr.Plain; decide⟩
  · exact ⟨.select (.var rfl) (.cons (.var rfl) .nil), by unfold Expr.Plain; decide⟩

theorem exists_trustingAxioms :
    ∃ axs, (trustingProgram.axiomTerms.run {}).1 = .ok axs ∧ axs.length = 3 := by
  have hcount : (trustingProgram.axiomTerms.run {}).1.toOption.map List.length = some 3 := by
    decide +kernel
  cases hok : (trustingProgram.axiomTerms.run {}).1 with
  | error err =>
    rw [hok] at hcount
    cases hcount
  | ok axs =>
    rw [hok] at hcount
    exact ⟨axs, rfl, Option.some.inj hcount⟩

theorem exists_trustingCondition (style : ConditionStyle) : ∃ t,
    ((Verifier.condition style (.ofProgram trustingProgram) trustingRoutine).run {}).1 = .ok t :=
  exists_ok_of_isOk (by rcases style with ⟨_ | _, _ | _⟩ <;> decide +kernel)

end Sample

section Verdict

variable {p : Program} {r : Routine} (hnames : ((Scope.ofProgram p).enter r).PlainNames)
  (hsep : ((Scope.ofProgram p).enter r).Separated)
  (hbody : r.body.WellTyped ((Scope.ofProgram p).enter r))
  (hframe : ∀ e ∈ p.axioms, ∀ x ∈ e.freeVars, ∀ cmd ∈ r.body,
    x ∉ ((Scope.ofProgram p).enter r).writes cmd)
  {supply : Supply} {axs : List Term} (haxioms : (p.axiomTerms.run supply).1 = .ok axs)
include hnames hsep hbody hframe haxioms

theorem Verifier.condition_exact_under {style : ConditionStyle} {supply : Supply} {t : Term}
    (h : ((condition style (.ofProgram p) r).run supply).1 = .ok t) :
    ∃ g, FlowGraph.ofBody r.body = .ok g ∧ ∀ M : Machine ((Scope.ofProgram p).enter r),
      t.ValidUnder ((Scope.ofProgram p).enter r) M.interp axs ↔
        M.SafeUnder axs r.body g.cut.graph := by
  rcases exists_of_condition h with ⟨g, hg, hcompute⟩
  have has : ∀ t ∈ axs, FreeIn (((Scope.ofProgram p).enter r).NameOf p.InAxioms) t :=
    fun t ht n hn => (Program.freeIn_axiomTerms haxioms t ht n hn).enter r
  have hunwritten : ∀ x, p.InAxioms x → ∀ cmd ∈ r.body,
      x ∉ ((Scope.ofProgram p).enter r).writes cmd :=
    fun x ⟨e, he, hx⟩ cmd hcmd => hframe e he x hx cmd hcmd
  exact ⟨g, hg, (encodes_compute_under
    (c := { style with theory := .standard, scope := (Scope.ofProgram p).enter r })
    Theory.advances_standard hnames hsep hbody has hunwritten r.name).of_runFresh hcompute⟩

/-- Both methods arrive at the same verdict. Let a routine respect types, let its
    names be plain and stay apart from values, and let it write no variable that
    occurs in an axiom of its program. If both conditions can be computed, then
    under the axioms one of them is valid in an interpretation exactly if the other
    is, namely if no execution fails from a state that the axioms grant. -/
theorem methods_agree {a a' : Bool} {supply₁ supply₂ : Supply} {wp sp : Term}
    (hwp : ((Verifier.condition { method := .wp, assumeAsserts := a } (.ofProgram p) r).run
      supply₁).1 = .ok wp)
    (hsp : ((Verifier.condition { method := .sp, assumeAsserts := a' } (.ofProgram p) r).run
      supply₂).1 = .ok sp) :
    (∀ I, wp.ValidUnder ((Scope.ofProgram p).enter r) I axs ↔
        sp.ValidUnder ((Scope.ofProgram p).enter r) I axs) ∧
      ∃ g, FlowGraph.ofBody r.body = .ok g ∧ ∀ M : Machine ((Scope.ofProgram p).enter r),
        wp.ValidUnder ((Scope.ofProgram p).enter r) M.interp axs ↔
          M.SafeUnder axs r.body g.cut.graph := by
  rcases Verifier.condition_exact_under hnames hsep hbody hframe haxioms hwp with ⟨g, hg, hexact⟩
  rcases Verifier.condition_exact_under hnames hsep hbody hframe haxioms hsp with ⟨g', hg', hexact'⟩
  cases hg.symm.trans hg'
  -- Validity is about the interpretation only, so any machine with it will do.
  refine ⟨fun I => ?_, g, hg, hexact⟩
  exact (hexact (.withoutCalls _ I)).trans (hexact' (.withoutCalls _ I)).symm

end Verdict

theorem methods_agree_trusting : ∃ axs wp sp,
    (trustingProgram.axiomTerms.run {}).1 = .ok axs ∧ axs.length = 3 ∧
      ((Verifier.condition { method := .wp } (.ofProgram trustingProgram)
        trustingRoutine).run {}).1 = .ok wp ∧
      ((Verifier.condition { method := .sp } (.ofProgram trustingProgram)
        trustingRoutine).run {}).1 = .ok sp ∧
      ∀ I, wp.ValidUnder ((Scope.ofProgram trustingProgram).enter trustingRoutine) I axs ↔
        sp.ValidUnder ((Scope.ofProgram trustingProgram).enter trustingRoutine) I axs := by
  rcases exists_trustingAxioms with ⟨axs, haxs, hlength⟩
  rcases exists_trustingCondition { method := .wp } with ⟨wp, hwp⟩
  rcases exists_trustingCondition { method := .sp } with ⟨sp, hsp⟩
  refine ⟨axs, wp, sp, haxs, hlength, hwp, hsp, ?_⟩
  exact (methods_agree trustingRoutine_plainNames
    (Scope.separated_of_keys trustingRoutine_plainNames (by decide))
    trustingRoutine_wellTyped (by decide) haxs hwp hsp).1

end Vouch
