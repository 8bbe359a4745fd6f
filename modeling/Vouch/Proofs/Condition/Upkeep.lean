import Vouch.Proofs.Condition.Encoder
import Vouch.Proofs.Lang.Spelling
import Vouch.Proofs.Term.Upkeep

/-!
# What Encoding Keeps Up

Whatever building terms keeps up, encoding keeps up too: it makes terms, it takes them
from its memory, or it fails.

## Main definitions

* `Tandem`: A way of following two computations that encode.
* `Encoding.Upholds`: What is known of terms is kept up.

## Theorems

* `Regime.Yields.beside`: Following one computation is following two.
* `yields_encode`: Then it is known of encoded expressions.
-/

namespace Vouch

open List Term

/-- The faults of expressions. -/
inductive ConditionError.OfExpression : ConditionError → Prop where
  | unknownVariable (name : String) : OfExpression (.unknownVariable name)
  | illTyped (expression : String) : OfExpression (.illTyped expression)
  | quantifierInTerm (expression : String) : OfExpression (.quantifierInTerm expression)

/-- The layer of what is encoded on the side. -/
def Side.layer : Side → Layer
  | formula => .formula
  | value => .value

@[simp]
theorem Ty.layer_sort (T : Ty) : T.sort.layer = .value := by
  cases T <;> rfl

theorem Encoding.layer_sortOf {c : Encoding} (Γ : List (String × Ty)) (e : Expr) :
    (c.sortOf Γ e).layer = .value := by
  unfold Encoding.sortOf
  cases c.scope.infer Γ e with
  | none => rfl
  | some T => exact T.layer_sort

/-- The terms of a variable, relabelled. -/
def VarTerms.relabel (φ : Relabelling) (v : VarTerms) : VarTerms :=
  { term := v.term.relabel φ, formula := v.formula.map (Term.relabel φ) }

/-- This is known of the terms of a variable of the type, of which only booleans have a
    formula. -/
def VarTerms.Known {World : Type} (R : Layer → World → Term → Prop) (T : Ty) (w : World)
    (p : VarTerms) : Prop :=
  R .value w p.term ∧ ∀ f, p.formula = some f → T = .bool ∧ R .formula w f

/-- A way of following two computations that encode. They fail together, and with
    errors that are allowed. -/
structure Tandem (World : Type) [Preorder World] extends Coupling World where
  /-- What is shown of two computations. -/
  Yields : ∀ {α : Type}, World → Encode α → Encode α → (World → α → α → Prop) → Prop
  error : ConditionError → Prop
  yields_pure : ∀ {α : Type} {w : World} {a a' : α} {Q : World → α → α → Prop}, Q w a a' →
    Yields w (pure a) (pure a') Q
  yields_throw : ∀ {α : Type} {w : World} {err : ConditionError} {Q : World → α → α → Prop},
    error err → Yields w (throw err) (throw err) Q
  yields_bind : ∀ {α β : Type} {w : World} {m m' : Encode α} {f f' : α → Encode β}
    {Q : World → α → α → Prop} {R : World → β → β → Prop}, Yields w m m' Q →
    (∀ v a a', w ≤ v → Q v a a' → Yields v (f a) (f' a') R) → Yields w (m >>= f) (m' >>= f') R
  yields_lift : ∀ {α : Type} {w : World} {m m' : Fresh α} {Q : World → α → α → Prop},
    Makes w m m' Q → Yields w (liftM m) (liftM m') Q

/-- Follow the first computation only. The second result may be anything. -/
def Regime.tandem {World : Type} [Preorder World] (G : Regime World) : Tandem World where
  toCoupling := .single G.fits
  Yields w m _ Q := G.Yields w m fun v a => ∃ a', Q v a a'
  error := G.error
  yields_pure h := Vouch.yields_pure ⟨_, h⟩
  yields_throw h := Vouch.yields_throw h
  yields_bind hm hf := Vouch.yields_bind hm fun v a hwv ⟨a', ha⟩ => hf v a a' hwv ha
  yields_lift h := Vouch.yields_lift h

namespace Tandem

variable {World α β : Type} [Preorder World] {G : Tandem World} {w : World}

/-- The second computation gives the term that the first gives, relabelled, and of that
    one this is known. -/
def Brings (G : Tandem World) (w : World) (m m' : Encode Term) (R : World → Term → Prop) : Prop :=
  G.Yields w m m' fun v t t' => t' = G.copy t ∧ R v t

/-- The second computation gives the terms that the first gives, relabelled, and of
    these this is known. -/
def BringsAll (G : Tandem World) (w : World) (m m' : Encode (List Term))
    (R : World → List Term → Prop) : Prop :=
  G.Yields w m m' fun v ts ts' => ts' = ts.map G.copy ∧ R v ts

variable {m m' : Encode Term} {R : World → Term → Prop} {Q : World → β → β → Prop}

theorem yields_mono {m m' : Encode α} {P P' : World → α → α → Prop} (hm : G.Yields w m m' P)
    (h : ∀ v a a', w ≤ v → P v a a' → P' v a a') : G.Yields w m m' P' := by
  have hpure := G.yields_bind hm fun v a a' hwv ha => G.yields_pure (h v a a' hwv ha)
  rwa [bind_pure, bind_pure] at hpure

theorem next {f f' : Term → Encode β} (hm : G.Brings w m m' R)
    (hf : ∀ v t, w ≤ v → R v t → G.Yields v (f t) (f' (G.copy t)) Q) :
    G.Yields w (m >>= f) (m' >>= f') Q := by
  refine G.yields_bind hm ?_
  rintro v t _ hwv ⟨rfl, ht⟩
  exact hf v t hwv ht

theorem nextAll {m m' : Encode (List Term)} {R : World → List Term → Prop}
    {f f' : List Term → Encode β} (hm : G.BringsAll w m m' R)
    (hf : ∀ v ts, w ≤ v → R v ts → G.Yields v (f ts) (f' (ts.map G.copy)) Q) :
    G.Yields w (m >>= f) (m' >>= f') Q := by
  refine G.yields_bind hm ?_
  rintro v ts _ hwv ⟨rfl, hts⟩
  exact hf v ts hwv hts

theorem brings_mapM {f f' : α → Encode Term} {R : α → World → Term → Prop}
    (hmono : ∀ a v u t, v ≤ u → R a v t → R a u t) : ∀ {as : List α} {w : World},
    (∀ a ∈ as, ∀ v, w ≤ v → G.Brings v (f a) (f' a) (R a)) →
    G.BringsAll w (as.mapM f) (as.mapM f') fun v ts => Forall₂ (fun t a => R a v t) ts as
  | [], w, _ => by
    rw [mapM_nil, mapM_nil]
    exact G.yields_pure ⟨rfl, .nil⟩
  | a :: as, w, h => by
    rw [mapM_cons, mapM_cons]
    refine next (h a mem_cons_self w le_rfl) fun v t hwv ht => ?_
    refine nextAll (brings_mapM hmono fun a' ha' u hvu =>
      h a' (mem_cons_of_mem _ ha') u (hwv.trans hvu)) fun u ts hvu hts => ?_
    exact G.yields_pure ⟨rfl, .cons (hmono a v u t hvu ht) hts⟩

theorem yields_foldlM {f f' : β → α → Encode β} {as : List α} : ∀ {w : World} {b b' : β},
    Q w b b' → (∀ v b b', w ≤ v → Q v b b' → ∀ a ∈ as, G.Yields v (f b a) (f' b' a) Q) →
    G.Yields w (as.foldlM f b) (as.foldlM f' b') Q := by
  induction as with
  | nil => exact fun hb _ => G.yields_pure hb
  | cons a as ih =>
    intro w b b' hb hf
    rw [foldlM_cons, foldlM_cons]
    refine G.yields_bind (hf w b b' le_rfl hb a mem_cons_self) fun v d d' hwv hd => ?_
    exact ih hd fun u e e' hvu he a' ha' =>
      hf u e e' (hwv.trans hvu) he a' (mem_cons_of_mem _ ha')

theorem yields_variableType (c : Encoding) {x : String} (h : G.error (.unknownVariable x)) :
    G.Yields w (c.variableType x) (c.variableType x) fun _ T T' =>
      T = T' ∧ c.scope.varType? x = some T := by
  unfold Encoding.variableType
  split
  · next T hT => exact G.yields_pure ⟨rfl, hT⟩
  · exact G.yields_throw h

end Tandem

section Single

variable {World : Type} [Preorder World] {G : Regime World} {w : World} {m m' : Encode Term}
  {R : World → Term → Prop}

theorem Tandem.Brings.yields (h : G.tandem.Brings w m m' R) : G.Yields w m R :=
  Regime.Yields.mono h fun _ _ _ ⟨_, _, ht⟩ => ht

/-- What is known of one computation alone is known of it beside itself. -/
theorem Regime.Yields.beside {α : Type} {m m' : Encode α} {g : α → α} {Q : World → α → Prop}
    (h : G.Yields w m Q) : G.tandem.Yields w m m' fun v a a' => a' = g a ∧ Q v a :=
  h.mono fun _ _ _ ha => ⟨_, rfl, ha⟩

end Single

/-- What is known of terms, which may depend on the bound variables, is kept up by the
    theory, it is known of bound variables and of the declared ones that may occur, and
    it passes from the body of a quantifier to the quantifier. The names and functions in
    expressions are `N` and `F`, the declared variables are `D`, each with the one that is
    in its place in the second computation, and `V` is known of what a quantifier binds.
    The faults of expressions are allowed. -/
structure Encoding.Upholds {World : Type} [Preorder World] (c : Encoding) (G : Tandem World)
    (N F : String → Prop) (D : String → String → Ty → Prop) (V : World → Term → Prop)
    (R : List (String × Ty) → Layer → World → Term → Prop) : Prop where
  error : ∀ {err : ConditionError}, err.OfExpression → G.error err
  theory : ∀ Γ, c.theory.Upholds G.toCoupling F (R Γ)
  keep : ∀ {w v t}, w ≤ v → V w t → V v t
  var : ∀ {w x} {T : Ty}, N x →
    G.Copies w (Term.var (valueName x) T.sort) (Term.var (valueName x) T.sort) V
  bound : ∀ {Γ w x T t}, Scope.boundType? Γ x = some T → BareVar (valueName x) T.sort t →
    V w t → R Γ .value w t
  declared : ∀ Γ {w x y T}, D x y T → G.Yields w (c.varTerms x T) (c.varTerms y T) fun v p p' =>
    p' = p.relabel G.labels ∧ p.Known (R Γ) T v
  all : ∀ {Γ w} {vars : List VarDecl} {vs b},
    Forall₂ (fun t v => BareVar (valueName v.name) v.ty.sort t ∧ V w t) vs vars →
    R (Γ ++ vars.map fun v => (v.name, v.ty)) .formula w b →
    G.Copies w (c.theory.all vs b) (c.theory.all (vs.map G.copy) (G.copy b)) (R Γ .formula)

section Encoding

variable {World : Type} [Preorder World] {G : Tandem World} {N F : String → Prop}
  {D : String → String → Ty → Prop} {V : World → Term → Prop}
  {R : List (String × Ty) → Layer → World → Term → Prop} {c : Encoding} {w : World}
  {Γ : List (String × Ty)} (hc : c.Upholds G N F D V R)
include hc

variable {x : String} {l r : Encode Term} {type : Option Ty}

theorem copies_boundVar (T : Ty) (hx : N x) :
    G.Copies w (Term.var (valueName x) T.sort) (Term.var (valueName x) T.sort) fun v t =>
      V v t ∧ BareVar (valueName x) T.sort t :=
  (hc.var hx).and_gives (gives_bareVar _ _)

theorem copies_onSide (side : Side) {t : Term} (ht : R Γ .value w t) :
    G.Copies w (c.onSide side t) (c.onSide side (G.copy t)) (R Γ side.layer) := by
  cases side with
  | value => exact G.makes_pure ⟨rfl, ht⟩
  | formula =>
    refine G.step ((hc.theory Γ).boolLit true) fun v l hwv hl => ?_
    exact (hc.theory Γ).two ⟨rfl, rfl, rfl, by simp⟩ ((hc.theory Γ).mono hwv ht) hl

theorem yields_encodeVar (side : Side) (hx : N x)
    (hfree : Scope.boundType? Γ x = none → ∀ T, c.scope.varType? x = some T → D x x T) :
    G.Brings w (c.encodeVar side Γ x) (c.encodeVar side Γ x) (R Γ side.layer) := by
  unfold Encoding.encodeVar
  split
  · next T hbound =>
    refine G.next (G.yields_lift (copies_boundVar hc T hx)) fun v t _ ht => ?_
    exact G.yields_lift (copies_onSide hc side (hc.bound hbound ht.2 ht.1))
  · next hbound =>
    refine G.yields_bind (G.yields_variableType c (hc.error (.unknownVariable x))) ?_
    rintro v T _ _ ⟨rfl, hT⟩
    refine G.yields_bind (hc.declared Γ (hfree hbound T hT)) ?_
    rintro u ⟨t, f⟩ _ _ ⟨rfl, ht, hf⟩
    -- Both computations have a formula for the variable, or neither has one.
    cases side with
    | value => exact G.yields_lift (copies_onSide hc .value ht)
    | formula =>
      cases f with
      | none => exact G.yields_lift (copies_onSide hc .formula ht)
      | some f => exact G.yields_pure ⟨rfl, (hf f rfl).2⟩

theorem yields_two {f : Term → Term → Fresh Term} {j k : Layer} (hl : G.Brings w l l (R Γ j))
    (hr : ∀ v, w ≤ v → G.Brings v r r (R Γ j))
    (hf : ∀ v a b, R Γ j v a → R Γ j v b →
      G.Copies v (f a b) (f (G.copy a) (G.copy b)) (R Γ k)) :
    G.Brings w (l >>= fun a => r >>= fun b => liftM (f a b))
      (l >>= fun a => r >>= fun b => liftM (f a b)) (R Γ k) := by
  refine G.next hl fun v a hwv ha => G.next (hr v hwv) fun u b hvu hb => ?_
  exact G.yields_lift (hf u a b ((hc.theory Γ).mono hvu ha) hb)

theorem yields_operator {op : Op} {sort : TermSort} {j k : Layer} (hop : op.Maps sort j k)
    (hl : G.Brings w l l (R Γ j)) (hr : ∀ v, w ≤ v → G.Brings v r r (R Γ j)) :
    G.Brings w (l >>= fun a => r >>= fun b => liftM (c.theory.make op sort [a, b]))
      (l >>= fun a => r >>= fun b => liftM (c.theory.make op sort [a, b])) (R Γ k) :=
  yields_two hc hl hr fun _ _ _ ha hb => (hc.theory Γ).two hop ha hb

theorem yields_binaryFormula {op : BinOp} {text : String} {l r : Side → Encode Term}
    (hl : ∀ v side, w ≤ v → G.Brings v (l side) (l side) (R Γ side.layer))
    (hr : ∀ v side, w ≤ v → G.Brings v (r side) (r side) (R Γ side.layer)) :
    G.Brings w (c.binaryFormula op type (.illTyped text) l r)
      (c.binaryFormula op type (.illTyped text) l r) (R Γ .formula) := by
  have hth := hc.theory Γ
  have hlf : G.Brings w (l .formula) (l .formula) (R Γ .formula) := hl w .formula le_rfl
  have hlv := fun v => hl v .value
  have hrf := fun v => hr v .formula
  have hrv := fun v => hr v .value
  have hequal : G.Brings w (Encoding.binaryFormula.equal c type l r)
      (Encoding.binaryFormula.equal c type l r) (R Γ .formula) := by
    unfold Encoding.binaryFormula.equal
    split
    · exact yields_operator hc ⟨rfl, rfl, rfl, by simp⟩ hlf hrf
    · exact yields_operator hc ⟨rfl, rfl, rfl, by simp⟩ (hlv w le_rfl) hrv
  cases op with
  | and => exact yields_two hc hlf hrf fun _ a b ha hb => hth.and [a, b] (by simp [ha, hb])
  | or => exact yields_two hc hlf hrf fun _ a b ha hb => hth.or [a, b] (by simp [ha, hb])
  | implies => exact yields_two hc hlf hrf fun _ _ _ ha hb => hth.implies ha hb
  | iff => exact yields_operator hc ⟨rfl, rfl, rfl, by simp⟩ hlf hrf
  | eq => exact hequal
  | neq => exact G.next hequal fun _ _ _ ht => G.yields_lift (hth.not ht)
  | lt | le => exact yields_operator hc ⟨rfl, rfl, rfl, by simp⟩ (hlv w le_rfl) hrv
  -- Comparisons the other way encode the second operand first.
  | gt | ge => exact yields_operator hc ⟨rfl, rfl, rfl, by simp⟩ (hrv w le_rfl) hlv
  | add | sub | mul | div | mod => exact G.yields_throw (hc.error (.illTyped text))

theorem yields_binaryValue {op : BinOp} (hl : ∀ v, w ≤ v → G.Brings v l l (R Γ .value))
    (hr : ∀ v, w ≤ v → G.Brings v r r (R Γ .value)) :
    G.Brings w (c.binaryValue op type l r) (c.binaryValue op type l r) (R Γ .value) := by
  have hth := hc.theory Γ
  have hequality : (Encoding.equalityOp type).Maps .bool .value .value := by
    unfold Encoding.equalityOp
    split <;> exact ⟨rfl, rfl, rfl, by simp⟩
  -- Comparisons that are negated.
  have hnegated : ∀ {m n : Encode Term} {o : Op}, (∀ v, w ≤ v → G.Brings v m m (R Γ .value)) →
      (∀ v, w ≤ v → G.Brings v n n (R Γ .value)) → o.Maps .bool .value .value →
      G.Brings w (m >>= fun a => n >>= fun b => liftM (c.theory.make o .bool [a, b]) >>=
          fun t => liftM (c.theory.tnot t))
        (m >>= fun a => n >>= fun b => liftM (c.theory.make o .bool [a, b]) >>=
          fun t => liftM (c.theory.tnot t)) (R Γ .value) := by
    intro m n o hm hn hop
    refine G.next (hm w le_rfl) fun v a hwv ha => G.next (hn v hwv) fun u b hvu hb => ?_
    exact G.next (G.yields_lift (hth.two hop (hth.mono hvu ha) hb))
      fun _ _ _ ht => G.yields_lift (hth.tnot ht)
  have hl₀ := hl w le_rfl
  cases op with
  | and => exact yields_two hc hl₀ hr fun _ _ _ ha hb => hth.tand ha hb
  | or => exact yields_two hc hl₀ hr fun _ _ _ ha hb => hth.tor ha hb
  | implies => exact yields_two hc hl₀ hr fun _ _ _ ha hb => hth.timplies ha hb
  | eq => exact yields_operator hc hequality hl₀ hr
  | neq => exact hnegated hl hr hequality
  | gt => exact yields_operator hc ⟨rfl, rfl, rfl, by simp⟩ (hr w le_rfl) hl
  | le => exact hnegated hr hl ⟨rfl, rfl, rfl, by simp⟩
  | ge => exact hnegated hl hr ⟨rfl, rfl, rfl, by simp⟩
  | iff | lt | add | sub | mul | div | mod =>
    exact yields_operator hc ⟨rfl, rfl, rfl, by simp⟩ hl₀ hr

omit hc

theorem Scope.of_boundType?_append {Γ : List (String × Ty)} {vars : List VarDecl}
    (h : Scope.boundType? (Γ ++ vars.map fun v => (v.name, v.ty)) x = none) :
    x ∉ vars.map VarDecl.name ∧ Scope.boundType? Γ x = none := by
  have hnot : x ∉ vars.map VarDecl.name := by
    intro hmem
    obtain ⟨T, hT⟩ := Scope.exists_boundType? (Γ := vars.map fun v => (v.name, v.ty))
      (by simpa using hmem)
    rw [Scope.boundType?_append, hT] at h
    exact absurd h (by simp)
  rw [Scope.boundType?_append, Scope.boundType?_of_not_mem (by simpa using hnot)] at h
  exact ⟨hnot, h⟩

theorem yields_encodeAll (hc : c.Upholds G N F D V R) {Γ : List (String × Ty)} {es : List Expr}
    (h : ∀ e ∈ es, ∀ w, G.Brings w (c.encode .value Γ e) (c.encode .value Γ e) (R Γ .value)) :
    ∀ w, G.BringsAll w (c.encodeAll Γ es) (c.encodeAll Γ es)
      fun v ts => ∀ t ∈ ts, R Γ .value v t := by
  induction es with
  | nil => exact fun _ => G.yields_pure ⟨rfl, by simp⟩
  | cons e es ih =>
    intro w
    rw [forall_mem_cons] at h
    refine G.next (h.1 w) fun v t _ ht => G.nextAll (ih h.2 v) fun u ts hvu hts => ?_
    exact G.yields_pure ⟨rfl, forall_mem_cons.mpr ⟨(hc.theory Γ).mono hvu ht, hts⟩⟩

/-- What is kept up is known of every encoded expression, whether it has a type or not.
    -/
theorem yields_encode (hc : c.Upholds G N F D V R) (e : Expr) : ∀ (side : Side) {w : World}
    {Γ : List (String × Ty)}, e.Spelled N F → (∀ x ∈ e.freeVars, Scope.boundType? Γ x = none →
      ∀ T, c.scope.varType? x = some T → D x x T) →
    G.Brings w (c.encode side Γ e) (c.encode side Γ e) (R Γ side.layer) := by
  induction e using Expr.induction with
  | var x => exact fun side _ _ hx hfree => yields_encodeVar hc side hx (hfree x (by simp))
  | all vars body ih =>
    intro side w Γ he hfree
    cases side with
    | value => exact G.yields_throw (hc.error (.quantifierInTerm _))
    | formula =>
      refine G.nextAll (G.brings_mapM
        (R := fun (v : VarDecl) w t => V w t ∧ BareVar (valueName v.name) v.ty.sort t)
        (fun _ _ _ _ hvu ht => ⟨hc.keep hvu ht.1, ht.2⟩)
        fun v hv _ _ => G.yields_lift (copies_boundVar hc v.ty (he.1 v hv))) fun v vs _ hvs => ?_
      refine G.next (ih .formula he.2 fun x hx hnone => ?_)
        fun u b hvu hb => G.yields_lift (hc.all ?_ hb)
      · -- What is free in the body and not bound by its variables is free outside.
        rcases Scope.of_boundType?_append hnone with ⟨hnot, hnone⟩
        exact hfree x (Expr.mem_freeVars_all.mpr ⟨hx, hnot⟩) hnone
      · exact hvs.imp fun _ _ ht => ⟨ht.2, hc.keep hvu ht.1⟩
  | operator e hop ih =>
    intro side w Γ he hfree
    have hth := hc.theory Γ
    have hparts : ∀ d ∈ e.parts, ∀ side w,
        G.Brings w (c.encode side Γ d) (c.encode side Γ d) (R Γ side.layer) := fun d hd side _ =>
      ih d hd side ((hop.spelled_iff.mp he).2 d hd) (hop.forall_free hfree d hd)
    cases e with
    | var | all => exact hop.elim
    | bool b =>
      cases side with
      | formula => exact G.yields_lift (hth.formula b)
      | value => exact G.yields_lift (hth.boolLit b)
    | int n =>
      cases side with
      | formula => exact G.yields_throw (hc.error (.illTyped _))
      | value => exact G.yields_lift (hth.int _)
    | unary op e =>
      have hpart := hparts e mem_cons_self
      cases op with
      | neg =>
        cases side with
        | formula => exact G.yields_throw (hc.error (.illTyped _))
        | value =>
          exact G.next (hpart .value w) fun v t _ ht => G.yields_lift
            (hth.make rfl rfl rfl (by simp) (forall_mem_singleton.mpr ht))
      | not =>
        cases side with
        | formula => exact G.next (hpart .formula w) fun v t _ ht => G.yields_lift (hth.not ht)
        | value => exact G.next (hpart .value w) fun v t _ ht => G.yields_lift (hth.tnot ht)
    | binary op l r =>
      have hl := hparts l mem_cons_self
      have hr := hparts r (mem_cons_of_mem _ mem_cons_self)
      cases side with
      | formula =>
        exact yields_binaryFormula hc (fun v side _ => hl side v) fun v side _ => hr side v
      | value => exact yields_binaryValue hc (fun v _ => hl .value v) fun v _ => hr .value v
    | app f args =>
      refine G.nextAll (yields_encodeAll hc (fun d hd => hparts d hd .value) w) fun v ts _ hts => ?_
      refine G.next (G.yields_lift (hth.make rfl rfl (Encoding.layer_sortOf _ _)
        (fun g hg => Op.app.inj hg ▸ he.1) hts)) fun u t _ ht => ?_
      exact G.yields_lift (copies_onSide hc side ht)
    | select m idx =>
      rcases forall_mem_cons.mp hparts with ⟨hm, hidx⟩
      refine G.next (hm .value w) fun v m' _ hm => ?_
      refine G.nextAll (yields_encodeAll hc (fun d hd => hidx d hd .value) v) fun u ts hvu hts => ?_
      refine G.next (G.yields_lift (hth.select (hth.mono hvu hm) hts
        (Encoding.layer_sortOf _ _))) fun _ t _ ht => ?_
      exact G.yields_lift (copies_onSide hc side ht)
    | update m idx val =>
      rcases forall_mem_cons.mp hparts with ⟨hm, hparts⟩
      rcases forall_mem_cons.mp hparts with ⟨hval, hidx⟩
      refine G.next (hm .value w) fun v m' _ hm => ?_
      refine G.nextAll (yields_encodeAll hc (fun d hd => hidx d hd .value) v) fun u ts hvu hts => ?_
      refine G.next (hval .value u) fun z val' huz hval => ?_
      refine G.next (G.yields_lift (hth.update (hth.mono (hvu.trans huz) hm)
        (fun t ht => hth.mono huz (hts t ht)) hval)) fun _ t _ ht => ?_
      exact G.yields_lift (copies_onSide hc side ht)

end Encoding

end Vouch
