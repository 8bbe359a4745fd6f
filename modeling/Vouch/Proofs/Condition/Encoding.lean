import Vouch.Proofs.Condition.Encoder

/-!
# The Encoding Has the Value of the Expression

An expression is encoded on two sides, and both encodings have its value. Types come in
where a value is used as a formula: whether a formula holds determines its value only
among truth values.

## Main definitions

* `Scope.Reads`: The assignment gives the wire names the values of a state.
* `Means`: A term has a meaning, whatever the state.

## Theorems

* `encodes_encode`: The encoding of a well-typed expression means the expression.
-/

namespace Vouch

open List Term

/-- The assignment gives the wire names of the variables in scope the values
    that they have in the state. -/
structure Scope.Reads (s : Scope) (I : Interp) (Γ : List (String × Ty)) (ρ st : Assignment I.Value) :
    Prop where
  value : ∀ x T, s.infer Γ (.var x) = some T → ρ (valueName x) = st x
  formula : ∀ x, boundType? Γ x = none → s.varType? x = some .bool → ρ x = st x

/-- The wire names of the variables in scope. -/
def Scope.WireName (s : Scope) (Γ : List (String × Ty)) (n : String) : Prop :=
  (∃ x T, s.infer Γ (.var x) = some T ∧ n = valueName x) ∨
    (boundType? Γ n = none ∧ s.varType? n = some .bool)

/-- What something comes to in a state of an interpretation. -/
abbrev Meaning := (I : Interp) → Assignment I.Value → I.Value

/-- The meaning of an expression. -/
noncomputable def Expr.meaning (s : Scope) (Γ : List (String × Ty)) (e : Expr) : Meaning :=
  fun I st => I.value s e Γ st

/-- The term has the meaning, whatever the state. -/
structure Means (s : Scope) (Γ : List (String × Ty)) (v : Meaning) (X : Stock) (t : Term) :
    Prop where
  has : X.Has t
  free : ∀ n, Free n t → s.WireName Γ n
  eval : ∀ (I : Interp) (ρ st : Assignment I.Value), s.Fits I Γ st → s.Reads I Γ ρ st →
    t.eval I ρ = v I st

/-- The meaning is a truth value. -/
def IsTruth (s : Scope) (Γ : List (String × Ty)) (v : Meaning) : Prop :=
  ∀ (I : Interp) (st : Assignment I.Value), s.Fits I Γ st → I.Dom .bool (v I st)

section Operators

variable {s : Scope} {Γ : List (String × Ty)} {W X : Stock} {u v w : Meaning} {a b t : Term}
  {th : Theory}

theorem Means.mono (h : Means s Γ v W t) (hWX : W ≤ X) : Means s Γ v X t :=
  ⟨h.has.mono hWX, h.free, h.eval⟩

theorem Means.congr (h : Means s Γ v X t)
    (heq : ∀ (I : Interp) (st : Assignment I.Value), s.Fits I Γ st → v I st = w I st) :
    Means s Γ w X t :=
  ⟨h.has, h.free, fun I ρ st hst hρ => (h.eval I ρ st hst hρ).trans (heq I st hst)⟩

variable {cs : List Term} {vs : List Meaning}

theorem map_eval_of_means (hcs : Forall₂ (fun c v => Means s Γ v X c) cs vs) {I : Interp}
    {ρ st : Assignment I.Value} (hst : s.Fits I Γ st) (hρ : s.Reads I Γ ρ st) :
    cs.map (Term.eval I · ρ) = vs.map fun v => v I st := by
  induction hcs with
  | nil => rfl
  | cons hc _ ih => rw [map_cons, map_cons, hc.eval I ρ st hst hρ, ih]

theorem builds_means (hth : th.Advances) (hcs : Forall₂ (fun c v => Means s Γ v W c) cs vs)
    {op : Op} (sort : TermSort) (hvar : op ≠ .var) (hall : op ≠ .all) :
    Builds W (th.make op sort cs)
      (Means s Γ fun I st => I.apply { op, sort } (vs.map fun v => v I st)) := by
  have hmem : ∀ c ∈ cs, W.Has c := fun c hc => by
    rcases exists_of_forall₂_left hcs hc with ⟨_, _, h⟩
    exact h.has
  refine (Theory.builds_operator hth hmem sort hvar hall).mono fun X r _ hr => ?_
  refine ⟨hr.has, fun n hn => ?_, fun I ρ st hst hρ => ?_⟩
  · rcases hr.free n hn with ⟨c, hc, hn⟩
    rcases exists_of_forall₂_left hcs hc with ⟨_, _, h⟩
    exact h.free n hn
  · rw [hr.eval, map_eval_of_means hcs hst hρ]

theorem builds_means₂ (hth : th.Advances) (ha : Means s Γ u W a) (hb : Means s Γ v W b) {op : Op}
    (sort : TermSort) (hvar : op ≠ .var) (hall : op ≠ .all)
    (heq : ∀ (I : Interp) (st : Assignment I.Value), s.Fits I Γ st →
      I.apply { op, sort } [u I st, v I st] = w I st) :
    Builds W (th.make op sort [a, b]) (Means s Γ w) :=
  (builds_means hth (.cons ha (.cons hb .nil)) sort hvar hall).mono fun _ _ _ h => h.congr heq

theorem Term.Connective.means {P : (I : Interp) → Assignment I.Value → Prop}
    (ht : Connective [a, b] P X t) (ha : Means s Γ u W a) (hb : Means s Γ v W b)
    (hu : IsTruth s Γ u) (hv : IsTruth s Γ v) {p : (I : Interp) → Assignment I.Value → Prop}
    (hP : ∀ (I : Interp) (ρ st : Assignment I.Value), a.eval I ρ = u I st → b.eval I ρ = v I st →
      (P I ρ ↔ p I st)) : Means s Γ (fun I st => I.truth (p I st)) X t := by
  refine ⟨ht.has, fun n hn => ?_, fun I ρ st hst hρ => ?_⟩
  · rcases ht.free n hn with ⟨c, hc, hn⟩
    simp only [mem_cons, not_mem_nil, or_false] at hc
    rcases hc with rfl | rfl
    · exact ha.free n hn
    · exact hb.free n hn
  · -- The term may have been simplified, so only whether it holds is known.
    have hea := ha.eval I ρ st hst hρ
    have heb := hb.eval I ρ st hst hρ
    refine I.eq_of_holds_iff (ht.dom I ρ fun c hc => ?_) (I.dom_truth _) ?_
    · simp only [mem_cons, not_mem_nil, or_false] at hc
      rcases hc with rfl | rfl
      · exact hea ▸ hu I st hst
      · exact heb ▸ hv I st hst
    · rw [ht.holds, I.holds_truth]
      exact hP I ρ st hea heb

theorem builds_tnand (hth : th.Advances) (ha : Means s Γ u W a) (hb : Means s Γ v W b) :
    Builds W (th.tnand a b)
      (Means s Γ fun I st => I.truth (¬ (I.Holds (u I st) ∧ I.Holds (v I st)))) :=
  builds_means₂ hth ha hb .bool (by simp) (by simp) fun _ _ _ => rfl

theorem builds_tnot (hth : th.Advances) (ha : Means s Γ u W a) :
    Builds W (th.tnot a) (Means s Γ fun I st => I.truth (¬ I.Holds (u I st))) :=
  (builds_tnand hth ha ha).mono fun _ _ _ h => h.congr fun I st _ => by rw [and_self]

theorem builds_tand (hth : th.Advances) (ha : Means s Γ u W a) (hb : Means s Γ v W b) :
    Builds W (th.tand a b) (Means s Γ fun I st => I.truth (I.Holds (u I st) ∧ I.Holds (v I st))) := by
  refine leaves_bind (builds_tnand hth ha hb) fun _ _ _ hnand => ?_
  refine (builds_tnot hth hnand).mono fun _ _ _ h => h.congr fun I st _ => ?_
  rw [I.holds_truth, not_not]

theorem builds_tor (hth : th.Advances) (ha : Means s Γ u W a) (hb : Means s Γ v W b) :
    Builds W (th.tor a b)
      (Means s Γ fun I st => I.truth (I.Holds (u I st) ∨ I.Holds (v I st))) := by
  refine leaves_bind (builds_tnot hth ha) fun X na hWX hna => ?_
  refine leaves_bind (builds_tnot hth (hb.mono hWX)) fun Y nb hXY hnb => ?_
  refine (builds_tnand hth (hna.mono hXY) hnb).mono fun _ _ _ h => h.congr fun I st _ => ?_
  rw [I.holds_truth, I.holds_truth, ← not_or, not_not]

theorem builds_timplies (hth : th.Advances) (ha : Means s Γ u W a) (hb : Means s Γ v W b) :
    Builds W (th.timplies a b)
      (Means s Γ fun I st => I.truth (I.Holds (u I st) → I.Holds (v I st))) := by
  refine leaves_bind (builds_tnot hth hb) fun X nb hWX hnb => ?_
  refine (builds_tnand hth (ha.mono hWX) hnb).mono fun _ _ _ h => h.congr fun I st _ => ?_
  rw [I.holds_truth, not_and_not_right]

theorem means_literal {sort : TermSort} {payload : Option Literal}
    (h : Operator { op := .lit, sort, payload } [] X t) :
    Means s Γ (fun I _ => I.literal payload) X t := by
  refine ⟨h.has, fun n hn => ?_, fun I ρ st _ _ => h.eval I ρ⟩
  rcases h.free n hn with ⟨c, hc, _⟩
  simp at hc

theorem builds_onSide {c : Encoding} (hth : c.theory.Advances) {side : Side}
    (ha : Means s Γ u W a) (hu : side = .formula → IsTruth s Γ u) :
    Builds W (c.onSide side a) (Means s Γ u) := by
  unfold Encoding.onSide
  cases side with
  | value => exact leaves_pure ha
  | formula =>
    refine leaves_bind (builds_boolLit c.theory W true) fun X lit hWX hlit => ?_
    refine builds_means₂ hth (ha.mono hWX) (means_literal hlit) .formula (by simp) (by simp)
      fun I st hst => ?_
    exact I.eq_of_holds_iff (I.dom_truth _) (hu rfl I st hst) (I.holds_truth _)

end Operators

section Binary

variable {s : Scope} {Γ : List (String × Ty)} {W : Stock} {c : Encoding} {l r : Expr} {T : Ty}
  {u : Meaning} {op : BinOp} {ml mr : Side → Encode Term}

theorem encodes_two {m₁ m₂ : Encode Term} {f : Term → Term → Encode Term} {v : Meaning}
    {Q : Stock → Term → Prop} (h₁ : ∀ W, Encodes W m₁ (Means s Γ u))
    (h₂ : ∀ W, Encodes W m₂ (Means s Γ v))
    (hf : ∀ X a b, Means s Γ u X a → Means s Γ v X b → Encodes X (f a b) Q) :
    Encodes W (do
      let a ← m₁
      let b ← m₂
      f a b) Q := by
  refine yields_bind (h₁ W) fun X a _ ha => yields_bind (h₂ X) fun Y b hXY hb => ?_
  exact hf Y a b (ha.mono hXY) hb

theorem truth_iff_eq {v : Meaning} (hu : IsTruth s Γ u) (hv : IsTruth s Γ v) (I : Interp)
    {st : Assignment I.Value} (hst : s.Fits I Γ st) :
    I.truth (I.Holds (u I st) ↔ I.Holds (v I st)) = I.truth (u I st = v I st) := by
  congr 1
  refine propext ⟨I.eq_of_holds_iff (hu I st hst) (hv I st hst), fun h => by rw [h]⟩

theorem meaning_binary (op : BinOp) (I : Interp) (st : Assignment I.Value) :
    (Expr.binary op l r).meaning s Γ I st =
      I.binary op (l.meaning s Γ I st) (r.meaning s Γ I st) := by
  rw [Expr.meaning, Interp.value]
  rfl

theorem encodes_expr {m : Fresh Term} {e : Expr} (hm : Builds W m (Means s Γ u))
    (h : ∀ (I : Interp) (st : Assignment I.Value), s.Fits I Γ st → u I st = I.value s e Γ st) :
    Encodes W (liftM m) (Means s Γ (e.meaning s Γ)) :=
  yields_lift (hm.mono fun _ _ _ ht => ht.congr h)

theorem encodes_binary {m : Fresh Term} (hm : Builds W m (Means s Γ u))
    (h : ∀ (I : Interp) (st : Assignment I.Value), s.Fits I Γ st →
      u I st = I.binary op (l.meaning s Γ I st) (r.meaning s Γ I st)) :
    Encodes W (liftM m) (Means s Γ ((Expr.binary op l r).meaning s Γ)) :=
  encodes_expr hm fun I st hst => (h I st hst).trans (meaning_binary op I st).symm

theorem HasType.isTruth {e : Expr} (h : HasType s Γ e .bool) : IsTruth s Γ (e.meaning s Γ) :=
  fun _ _ hst => h.dom_value hst

variable (hl : HasType s Γ l T) (hr : HasType s Γ r T)
  (hml : ∀ side, (side = .formula → T = .bool) →
    ∀ W, Encodes W (ml side) (Means s Γ (l.meaning s Γ)))
  (hmr : ∀ side, (side = .formula → T = .bool) →
    ∀ W, Encodes W (mr side) (Means s Γ (r.meaning s Γ)))

include hml hmr

theorem encodes_operands {f : Term → Term → Fresh Term} {side : Side}
    (hside : side = .formula → T = .bool)
    (hf : ∀ {X a b}, Means s Γ (l.meaning s Γ) X a → Means s Γ (r.meaning s Γ) X b →
      Builds X (f a b) (Means s Γ u))
    (h : ∀ (I : Interp) (st : Assignment I.Value), s.Fits I Γ st →
      u I st = I.binary op (l.meaning s Γ I st) (r.meaning s Γ I st)) :
    Encodes W (do
      let a ← ml side
      let b ← mr side
      f a b) (Means s Γ ((Expr.binary op l r).meaning s Γ)) :=
  encodes_two (hml side hside) (hmr side hside) fun _ _ _ ha hb => encodes_binary (hf ha hb) h

include hl hr

theorem encodes_connective {f : Term → Term → Fresh Term}
    {P : Term → Term → (I : Interp) → Assignment I.Value → Prop}
    {p : (I : Interp) → I.Value → I.Value → Prop} (hT : T = .bool)
    (hf : ∀ X a b, X.Has a → X.Has b → Builds X (f a b) (Connective [a, b] (P a b)))
    (hP : ∀ a b I ρ, P a b I ρ ↔ p I (a.eval I ρ) (b.eval I ρ))
    (hp : ∀ (I : Interp) (x y : I.Value), I.truth (p I x y) = I.binary op x y) :
    Encodes W (do
      let a ← ml .formula
      let b ← mr .formula
      f a b) (Means s Γ ((Expr.binary op l r).meaning s Γ)) := by
  subst hT
  refine encodes_operands hml hmr (fun _ => rfl) (fun {X a b} ha hb =>
    (hf X a b ha.has hb.has).mono fun Y t _ ht =>
      ht.means ha hb hl.isTruth hr.isTruth fun I ρ st hea heb => ?_) fun I st _ => hp I _ _
  rw [hP, hea, heb]

theorem encodes_binaryValue (hth : c.theory.Advances) (hop : op.Takes T) {type : Option Ty} :
    Encodes W (c.binaryValue op type (ml .value) (mr .value))
      (Means s Γ ((Expr.binary op l r).meaning s Γ)) := by
  have heq : ∀ {X : Stock} {a b : Term}, Means s Γ (l.meaning s Γ) X a →
      Means s Γ (r.meaning s Γ) X b →
      Builds X (c.theory.make (Encoding.equalityOp type) .bool [a, b])
        (Means s Γ fun I st => I.truth (l.meaning s Γ I st = r.meaning s Γ I st)) := by
    intro X a b ha hb
    unfold Encoding.equalityOp
    split <;> exact builds_means₂ hth ha hb .bool (by simp) (by simp) fun _ _ _ => rfl
  have hlt : ∀ {X : Stock} {a b : Term} {u v : Meaning}, Means s Γ u X a → Means s Γ v X b →
      Builds X (c.theory.make .tlt .bool [a, b])
        (Means s Γ fun I st => I.truth (I.toInt (u I st) < I.toInt (v I st))) :=
    fun ha hb => builds_means₂ hth ha hb .bool (by simp) (by simp) fun _ _ _ => rfl
  -- The other comparisons are negations of these two.
  have hnegated : ∀ {X : Stock} {m : Fresh Term} {p : (I : Interp) → Assignment I.Value → Prop},
      Builds X m (Means s Γ fun I st => I.truth (p I st)) →
      Builds X (m >>= c.theory.tnot) (Means s Γ fun I st => I.truth (¬ p I st)) :=
    fun hm => leaves_bind hm fun _ _ _ ht =>
      (builds_tnot hth ht).mono fun _ _ _ h => h.congr fun I st _ => by rw [I.holds_truth]
  cases op with
  | and => exact encodes_operands hml hmr (by simp) (builds_tand hth) fun _ _ _ => rfl
  | or => exact encodes_operands hml hmr (by simp) (builds_tor hth) fun _ _ _ => rfl
  | implies => exact encodes_operands hml hmr (by simp) (builds_timplies hth) fun _ _ _ => rfl
  | iff =>
    refine encodes_operands hml hmr (by simp) (fun ha hb =>
      builds_means₂ hth ha hb .bool (by simp) (by simp) fun _ _ _ => rfl) fun I st hst => ?_
    have hT : T = .bool := hop
    subst hT
    exact (truth_iff_eq hl.isTruth hr.isTruth I hst).symm
  | eq => exact encodes_operands hml hmr (by simp) heq fun _ _ _ => rfl
  | neq =>
    exact encodes_operands hml hmr (by simp) (fun ha hb => hnegated (heq ha hb)) fun _ _ _ => rfl
  | lt => exact encodes_operands hml hmr (by simp) hlt fun _ _ _ => rfl
  -- The right operand is encoded first where the comparison is turned around.
  | gt =>
    exact encodes_two (hmr .value (by simp)) (hml .value (by simp)) fun X b a hb ha =>
      encodes_binary (hlt hb ha) fun _ _ _ => rfl
  | le =>
    refine encodes_two (hmr .value (by simp)) (hml .value (by simp)) fun X b a hb ha =>
      encodes_binary (hnegated (hlt hb ha)) fun I st _ => ?_
    simp only [Interp.binary, not_lt]
  | ge =>
    refine encodes_operands hml hmr (by simp) (fun ha hb => hnegated (hlt ha hb)) fun I st _ => ?_
    simp only [Interp.binary, not_lt]
  | add | sub | mul | div | mod =>
    exact encodes_operands hml hmr (by simp) (fun ha hb =>
      builds_means₂ hth ha hb .int (by simp) (by simp) fun _ _ _ => rfl) fun _ _ _ => rfl

theorem encodes_binaryFormula (hth : c.theory.Advances) (hop : op.Takes T)
    {illTyped : ConditionError} :
    Encodes W (c.binaryFormula op (some T) illTyped ml mr)
      (Means s Γ ((Expr.binary op l r).meaning s Γ)) := by
  -- Booleans are compared as formulas, the others as values.
  have hequal : ∀ W, Encodes W (Encoding.binaryFormula.equal c (some T) ml mr)
      (Means s Γ ((Expr.binary .eq l r).meaning s Γ)) := by
    intro W
    unfold Encoding.binaryFormula.equal
    split
    · next hbool =>
      have hT : T = .bool := by
        cases T <;> simp_all
      subst hT
      exact encodes_operands hml hmr (fun _ => rfl) (fun ha hb =>
        builds_means₂ hth ha hb .formula (by simp) (by simp) fun I st hst =>
          truth_iff_eq hl.isTruth hr.isTruth I hst) fun _ _ _ => rfl
    · exact encodes_operands hml hmr (by simp) (fun ha hb =>
        builds_means₂ hth ha hb .formula (by simp) (by simp) fun _ _ _ => rfl) fun _ _ _ => rfl
  have hatom : ∀ {X : Stock} {a b : Term} {u v : Meaning} {p : Op}, p ≠ .var → p ≠ .all →
      Means s Γ u X a → Means s Γ v X b → Builds X (c.theory.make p .formula [a, b])
        (Means s Γ fun I st => I.apply { op := p, sort := .formula } [u I st, v I st]) :=
    fun hvar hall ha hb => builds_means₂ hth ha hb .formula hvar hall fun _ _ _ => rfl
  cases op with
  | and =>
    exact encodes_connective hl hr hml hmr hop
      (fun X a b ha hb => Theory.builds_and hth (by simp [ha, hb])) (by simp) fun _ _ _ => rfl
  | or =>
    exact encodes_connective hl hr hml hmr hop
      (fun X a b ha hb => Theory.builds_or hth (by simp [ha, hb])) (by simp) fun _ _ _ => rfl
  | implies =>
    exact encodes_connective hl hr hml hmr hop
      (fun X a b ha hb => Theory.builds_implies hth ha hb) (by simp) fun _ _ _ => rfl
  | iff =>
    exact encodes_operands hml hmr (fun _ => hop) (hatom (by simp) (by simp)) fun _ _ _ => rfl
  | eq => exact hequal W
  | neq =>
    refine yields_bind (hequal W) fun X a _ ha => encodes_binary
      (builds_means hth (.cons ha .nil) .formula (by simp) (by simp)) fun I st _ => ?_
    simp only [map_cons, map_nil, Interp.apply, meaning_binary, Interp.binary, I.holds_truth]
  | lt | le =>
    exact encodes_operands hml hmr (by simp) (hatom (by simp) (by simp)) fun _ _ _ => rfl
  | gt | ge =>
    exact encodes_two (hmr .value (by simp)) (hml .value (by simp)) fun X b a hb ha =>
      encodes_binary (hatom (by simp) (by simp) hb ha) fun _ _ _ => rfl
  | add | sub | mul | div | mod => exact yields_throw trivial

end Binary

section Expressions

variable {W : Stock} {c : Encoding} {Γ : List (String × Ty)}

theorem means_var {x : String} {T : Ty} {X : Stock} {t : Term}
    (hx : c.scope.infer Γ (.var x) = some T) (ht : Term.Variable (valueName x) T.sort X t) :
    Means c.scope Γ ((Expr.var x).meaning c.scope Γ) X t := by
  refine ⟨ht.has, fun n hn => .inl ⟨x, T, hx, (free_var ht.name?).mp hn⟩, fun I ρ st _ hρ => ?_⟩
  rw [eval_var ht.name?, hρ.value x T hx, Expr.meaning, Interp.value]

theorem encodes_encodeVar (hth : c.theory.Advances) {side : Side} {x : String} {T : Ty}
    (hx : c.scope.infer Γ (.var x) = some T) (hside : side = .formula → T = .bool) :
    Encodes W (c.encodeVar side Γ x) (Means c.scope Γ ((Expr.var x).meaning c.scope Γ)) := by
  have htruth : side = .formula → IsTruth c.scope Γ ((Expr.var x).meaning c.scope Γ) := fun h =>
    HasType.isTruth (.var (hside h ▸ hx))
  unfold Encoding.encodeVar
  split
  · next ty hbound =>
    have hT : ty = T := by simpa [Scope.infer, hbound] using hx
    subst hT
    refine yields_bind (yields_lift (builds_var W _ _)) fun X t _ ht => ?_
    exact yields_lift (builds_onSide hth (means_var hx ht) htruth)
  · next hbound =>
    refine yields_bind (yields_variableType c x trivial) fun X ty _ hty => ?_
    have hT : ty = T := by simpa [Scope.infer, hbound, hty] using hx
    subst hT
    refine yields_bind (encodes_varTerms c hth x ty) fun Y p _ hp => ?_
    split
    · next f hf =>
      -- On the formula side a boolean variable is its formula.
      have hbool := hside rfl
      rcases hp.formula (by rw [hbool]; rfl) with ⟨g, hg, hvar⟩
      rw [hf, Option.some.injEq] at hg
      subst hg
      refine yields_pure ⟨hvar.has, fun n hn => .inr ?_, fun I ρ st _ hρ => ?_⟩
      · rw [(free_var hvar.name?).mp hn]
        exact ⟨hbound, hbool ▸ hty⟩
      · rw [eval_var hvar.name?, hρ.formula x hbound (hbool ▸ hty), Expr.meaning, Interp.value]
    · exact yields_lift (builds_onSide hth (means_var hx hp.term) htruth)

/-- The terms mean the expressions, one after the other. -/
def Mean (s : Scope) (Γ : List (String × Ty)) (es : List Expr) (X : Stock) (ts : List Term) :
    Prop :=
  Forall₂ (fun t v => Means s Γ v X t) ts (es.map fun e => e.meaning s Γ)

theorem values_eq_map (I : Interp) (s : Scope) (Γ : List (String × Ty)) (st : Assignment I.Value)
    (es : List Expr) :
    I.values s es Γ st = (es.map fun e => e.meaning s Γ).map fun v => v I st := by
  rw [I.values_eq_map, map_map]
  rfl

section Compound

variable (hth : c.theory.Advances) {side : Side} {T : Ty} (hside : side = .formula → T = .bool)
include hth hside

theorem encodes_onSide {m : Fresh Term} {u : Meaning} {e : Expr}
    (hm : Builds W m (Means c.scope Γ u)) (htype : HasType c.scope Γ e T)
    (h : ∀ (I : Interp) (st : Assignment I.Value), u I st = I.value c.scope e Γ st) :
    Encodes W (do
      let t ← m
      c.onSide side t) (Means c.scope Γ (e.meaning c.scope Γ)) := by
  refine yields_bind (encodes_expr hm fun I st _ => h I st) fun _ _ _ ht => ?_
  refine yields_lift (builds_onSide hth ht fun h => ?_)
  exact HasType.isTruth (hside h ▸ htype)

theorem encodes_unary {op : UnOp} {e : Expr} (htype : HasType c.scope Γ (.unary op e) T)
    (he : ∀ {U}, HasType c.scope Γ e U → ∀ side, (side = .formula → U = .bool) → ∀ W,
      Encodes W (c.encode side Γ e) (Means c.scope Γ (e.meaning c.scope Γ))) :
    Encodes W (c.encode side Γ (.unary op e))
      (Means c.scope Γ ((Expr.unary op e).meaning c.scope Γ)) := by
  cases htype with
  | neg hint =>
    cases side with
    | formula => exact absurd (hside rfl) (by simp)
    | value =>
      rw [Encoding.encode]
      refine yields_bind (he hint .value (by simp) W) fun X t _ ht => encodes_expr
        (builds_means hth (.cons ht .nil) .int (by simp) (by simp)) fun I st _ => ?_
      rw [Interp.value]
      rfl
  | not hbool =>
    have hval : ∀ (I : Interp) (st : Assignment I.Value), c.scope.Fits I Γ st →
        I.truth (¬ I.Holds (e.meaning c.scope Γ I st)) =
          I.value c.scope (.unary .not e) Γ st := fun I st _ => by
      rw [Expr.meaning, Interp.value]
    -- A formula is negated by the connective, a value by what stands for it among values.
    cases side with
    | formula =>
      rw [Encoding.encode]
      exact yields_bind (he hbool .formula (fun _ => rfl) W) fun X t _ ht =>
        encodes_expr (builds_means hth (.cons ht .nil) .formula (by simp) (by simp)) hval
    | value =>
      rw [Encoding.encode]
      exact yields_bind (he hbool .value (by simp) W) fun X t _ ht =>
        encodes_expr (builds_tnot hth ht) hval

theorem encodes_app {f : String} {args : List Expr} (htype : HasType c.scope Γ (.app f args) T)
    (hargs : ∀ W, Encodes W (c.encodeAll Γ args) (Mean c.scope Γ args)) :
    Encodes W (c.encode side Γ (.app f args))
      (Means c.scope Γ ((Expr.app f args).meaning c.scope Γ)) := by
  rw [Encoding.encode]
  refine yields_bind (hargs W) fun X ts _ hts => encodes_onSide hth hside
    (builds_means hth hts _ (by simp) (by simp)) htype fun I st => ?_
  rw [Interp.value, values_eq_map]
  rfl

variable {m : Expr} {idx : List Expr}
  (hm : ∀ W, Encodes W (c.encode .value Γ m) (Means c.scope Γ (m.meaning c.scope Γ)))
  (hidx : ∀ W, Encodes W (c.encodeAll Γ idx) (Mean c.scope Γ idx))
include hm hidx

theorem encodes_select (htype : HasType c.scope Γ (.select m idx) T) :
    Encodes W (c.encode side Γ (.select m idx))
      (Means c.scope Γ ((Expr.select m idx).meaning c.scope Γ)) := by
  rw [Encoding.encode]
  refine yields_bind (hm W) fun X tm _ htm => yields_bind (hidx X) fun Y ts hXY hts => ?_
  -- The indices become one value before the map is read.
  refine encodes_onSide hth hside (leaves_bind (builds_means hth hts .value (by simp) (by simp))
    fun Z i hYZ hi => builds_means hth (.cons (htm.mono (hXY.trans hYZ)) (.cons hi .nil)) _
      (by simp) (by simp)) htype fun I st => ?_
  rw [Interp.value, values_eq_map]
  rfl

theorem encodes_update {v : Expr} (htype : HasType c.scope Γ (.update m idx v) T)
    (hv : ∀ W, Encodes W (c.encode .value Γ v) (Means c.scope Γ (v.meaning c.scope Γ))) :
    Encodes W (c.encode side Γ (.update m idx v))
      (Means c.scope Γ ((Expr.update m idx v).meaning c.scope Γ)) := by
  rw [Encoding.encode]
  refine yields_bind (hm W) fun X tm _ htm => yields_bind (hidx X) fun Y ts hXY hts => ?_
  refine yields_bind (hv Y) fun Z tv hYZ htv => ?_
  refine encodes_onSide hth hside (leaves_bind (builds_means hth (hts.imp fun _ _ h => h.mono hYZ)
    .value (by simp) (by simp)) fun Z' i hZ hi => builds_means hth
      (.cons (htm.mono (hXY.trans (hYZ.trans hZ))) (.cons hi (.cons (htv.mono hZ) .nil)))
      .value (by simp) (by simp)) htype fun I st => ?_
  rw [Interp.value, values_eq_map]
  rfl

end Compound

theorem forAll_reads {s : Scope} {I : Interp} (hs : ∀ x T, s.varType? x = some T → PlainName x)
    {P Q : Assignment I.Value → Prop} : ∀ {vars : List VarDecl} {Γ : List (String × Ty)}
    {ρ st : Assignment I.Value}, s.Fits I Γ st → s.Reads I Γ ρ st →
    (∀ ρ' st', s.Fits I (Γ ++ vars.map fun v => (v.name, v.ty)) st' →
      s.Reads I (Γ ++ vars.map fun v => (v.name, v.ty)) ρ' st' → (P ρ' ↔ Q st')) →
    (I.ForAll (vars.map fun v => (valueName v.name, v.ty.sort)) P ρ ↔
      I.ForAll (vars.map fun v => (v.name, v.ty.sort)) Q st) := by
  -- Each variable joins the scope before the rest is quantified.
  intro vars
  induction vars with
  | nil =>
    intro Γ ρ st hst hρ hbody
    rw [map_nil, append_nil] at hbody
    exact hbody ρ st hst hρ
  | cons v vars ih =>
    intro Γ ρ st hst hρ hbody
    refine forall_congr' fun a => imp_congr_right fun ha => ?_
    refine ih (hst.update ha) ⟨fun y T hy => ?_, fun y hnone hy => ?_⟩ fun ρ' st' => ?_
    · rw [Scope.infer_var_concat] at hy
      by_cases hyv : y = v.name
      · rw [hyv, Function.update_self, Function.update_self]
      · rw [if_neg hyv] at hy
        rw [Function.update_of_ne hyv, Function.update_of_ne fun h => hyv (valueName_inj h)]
        exact hρ.value y T hy
    · rw [Scope.boundType?_concat] at hnone
      split at hnone
      · simp at hnone
      · next hyv =>
        -- No value name is the plain name of a formula.
        rw [Function.update_of_ne hyv, Function.update_of_ne (plainName_ne_valueName (hs y _ hy))]
        exact hρ.formula y hnone hy
    · rw [append_assoc]
      exact hbody ρ' st'

variable {vars : List VarDecl}

theorem bindersOf_of_variables {X : Stock} {vs : List Term}
    (h : Forall₂ (fun t v => Term.Variable (valueName v.name) v.ty.sort X t) vs vars) :
    bindersOf vs = vars.map fun v => (valueName v.name, v.ty.sort) := by
  induction h with
  | nil => rfl
  | cons hv _ ih =>
    rw [bindersOf_cons_some hv.name?, ih, hv.sort_eq]
    rfl

theorem encodes_quantifier (hth : c.theory.Advances)
    (hs : ∀ x T, c.scope.varType? x = some T → PlainName x) {body : Expr}
    (hvars : ∀ v ∈ vars, PlainName v.name)
    (htype : HasType c.scope (Γ ++ vars.map fun v => (v.name, v.ty)) body .bool)
    (hbody : ∀ W, Encodes W (c.encode .formula (Γ ++ vars.map fun v => (v.name, v.ty)) body)
      (Means c.scope (Γ ++ vars.map fun v => (v.name, v.ty))
        (body.meaning c.scope (Γ ++ vars.map fun v => (v.name, v.ty))))) :
    Encodes W (c.encode .formula Γ (.all vars body))
      (Means c.scope Γ ((Expr.all vars body).meaning c.scope Γ)) := by
  rw [Encoding.encode]
  refine yields_bind (yields_mapM
    (R := fun v : VarDecl => Term.Variable (valueName v.name) v.ty.sort)
    (fun _ _ _ _ hXY h => h.mono hXY) fun v _ X _ => yields_lift (builds_var X _ _))
    fun X vs _ hvs => ?_
  refine yields_bind (hbody X) fun Y b hXY hb => yields_lift ?_
  have hbinders := bindersOf_of_variables hvs
  have hnames : vs.filterMap name? = vars.map fun v => valueName v.name := by
    rw [← map_fst_bindersOf, hbinders, map_map]
    rfl
  have hall : ∀ t ∈ vs, Y.Has t ∧ ∃ x, PlainName x ∧ t.name? = some (valueName x) := by
    intro t ht
    rcases exists_of_forall₂_left hvs ht with ⟨v, hv, hvar⟩
    exact ⟨hvar.has.mono hXY, v.name, hvars v hv, hvar.name?⟩
  refine (Theory.builds_all hth (fun t ht => (hall t ht).1) (fun t ht => (hall t ht).2)
    hb.has).mono fun Z r _ hr => ?_
  obtain ⟨hhas, hfree, hholds, hdom⟩ := hr
  refine ⟨hhas, fun n hn => ?_, fun I ρ st hst hρ => ?_⟩
  · -- A name free in the body is one in scope around it, if it is not bound.
    rcases hfree n hn with ⟨hfree, hnot⟩
    rw [hnames] at hnot
    rcases hb.free n hfree with ⟨x, T, hx, rfl⟩ | ⟨hnone, hbool⟩
    · have hxv : x ∉ (vars.map fun v => (v.name, v.ty)).map (·.1) := by
        intro h
        rw [map_map] at h
        rcases mem_map.mp h with ⟨v, hv, rfl⟩
        exact hnot (mem_map_of_mem (f := fun v => valueName v.name) hv)
      exact .inl ⟨x, T, Scope.infer_var_append hxv ▸ hx, rfl⟩
    · refine .inr ⟨?_, hbool⟩
      rw [Scope.boundType?_append] at hnone
      cases hv : Scope.boundType? (vars.map fun v => (v.name, v.ty)) n <;> simp_all
  · rw [Expr.meaning, Interp.value]
    refine I.eq_of_holds_iff (hdom I ρ fun hnil => ?_) (I.dom_truth _) ?_
    · -- Over no variables the quantifier is its body.
      rw [hnil] at hvs
      cases hvs
      have hnoΓ : Γ ++ ([] : List VarDecl).map (fun v => (v.name, v.ty)) = Γ := append_nil Γ
      rw [hnoΓ] at hb htype
      rw [hb.eval I ρ st hst hρ]
      exact htype.dom_value hst
    · rw [hholds, I.holds_truth, hbinders]
      refine forAll_reads hs hst hρ fun ρ' st' hst' hρ' => ?_
      rw [hb.eval I ρ' st' hst' hρ']
      rfl

end Expressions

theorem encodes_encodeAll {c : Encoding} {Γ : List (String × Ty)} {es : List Expr}
    (h : ∀ e ∈ es, ∀ W, Encodes W (c.encode .value Γ e) (Means c.scope Γ (e.meaning c.scope Γ))) :
    ∀ W, Encodes W (c.encodeAll Γ es) (Mean c.scope Γ es) := by
  induction es with
  | nil =>
    intro W
    rw [Encoding.encodeAll]
    exact yields_pure .nil
  | cons e es ih =>
    intro W
    rw [forall_mem_cons] at h
    rw [Encoding.encodeAll]
    refine yields_bind (h.1 W) fun X t _ ht => yields_bind (ih h.2 X) fun Y ts hXY hts => ?_
    exact yields_pure (.cons (ht.mono hXY) hts)

/-- The encoding of a well-typed expression means the expression, on either
    side. -/
theorem encodes_encode {c : Encoding} (hth : c.theory.Advances)
    (hs : ∀ x T, c.scope.varType? x = some T → PlainName x) (e : Expr) : ∀ {W : Stock}
    {side : Side} {Γ : List (String × Ty)} {T : Ty},
    HasType c.scope Γ e T → e.Plain → (side = .formula → T = .bool) →
    Encodes W (c.encode side Γ e) (Means c.scope Γ (e.meaning c.scope Γ)) := by
  induction e using Expr.induction with
  | var x =>
    intro W side Γ T htype _ hside
    cases htype with
    | var hx =>
      rw [Encoding.encode]
      exact encodes_encodeVar hth hx hside
  | all vars body ih =>
    intro W side Γ T htype hplain _
    cases htype with
    | all hbody =>
      cases side with
      | value =>
        rw [Encoding.encode]
        exact yields_throw trivial
      | formula =>
        exact encodes_quantifier hth hs hplain.all.1 hbody
          fun W => ih hbody hplain.all.2 fun _ => rfl
  | operator e he ih =>
    intro W side Γ T htype hplain hside
    have hpart : ∀ d ∈ e.parts, ∀ {U}, HasType c.scope Γ d U → ∀ side,
        (side = .formula → U = .bool) → ∀ W,
        Encodes W (c.encode side Γ d) (Means c.scope Γ (d.meaning c.scope Γ)) :=
      fun d hd _ hU _ h _ => ih d hd hU (hplain.part he hd) h
    have hvalue : ∀ d ∈ e.parts, ∀ W,
        Encodes W (c.encode .value Γ d) (Means c.scope Γ (d.meaning c.scope Γ)) := by
      intro d hd W
      rcases htype.part he hd with ⟨U, hU⟩
      exact hpart d hd hU .value (by simp) W
    cases e with
    | var | all => exact he.elim
    | bool b =>
      have hval : ∀ (I : Interp) (st : Assignment I.Value), c.scope.Fits I Γ st →
          I.literal (some (.bool b)) = I.value c.scope (.bool b) Γ st := fun I st _ => by
        rw [Interp.value]
        rfl
      cases side with
      | formula =>
        rw [Encoding.encode]
        exact encodes_expr ((builds_literal W _ _ _).mono fun _ _ _ => means_literal) hval
      | value =>
        rw [Encoding.encode]
        exact encodes_expr ((builds_boolLit c.theory W b).mono fun _ _ _ => means_literal) hval
    | int n =>
      cases htype
      cases side with
      | formula => exact absurd (hside rfl) (by simp)
      | value =>
        rw [Encoding.encode]
        refine encodes_expr ((builds_literal W _ _ _).mono fun _ _ _ => means_literal)
          fun I st _ => ?_
        rw [Interp.value]
        rfl
    | unary op e => exact encodes_unary hth hside htype (hpart e mem_cons_self)
    | binary op l r =>
      cases htype with
      | binary hop hl hr =>
        have htype : c.operandType Γ l r = c.scope.infer Γ l := by
          rw [Encoding.operandType, hl.infer]
          rfl
        have hml := hpart l mem_cons_self hl
        have hmr := hpart r (mem_cons_of_mem _ mem_cons_self) hr
        cases side with
        | formula =>
          rw [Encoding.encode, htype, hl.infer]
          exact encodes_binaryFormula hl hr hml hmr hth hop
        | value =>
          rw [Encoding.encode]
          exact encodes_binaryValue hl hr hml hmr hth hop
    | app f args => exact encodes_app hth hside htype (encodes_encodeAll hvalue)
    | select m idx =>
      rcases forall_mem_cons.mp hvalue with ⟨hm, hidx⟩
      exact encodes_select hth hside hm (encodes_encodeAll hidx) htype
    | update m idx v =>
      rcases forall_mem_cons.mp hvalue with ⟨hm, hvalue⟩
      rcases forall_mem_cons.mp hvalue with ⟨hv, hidx⟩
      exact encodes_update hth hside hm (encodes_encodeAll hidx) htype hv

end Vouch
