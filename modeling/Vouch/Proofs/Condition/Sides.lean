import Vouch.Proofs.Condition.Versions

/-!
# The Two Sides of an Expression

What the encodings mean is known from `encodes_encode`, but that says nothing of an
encoding that fails. Here it is settled when encoding succeeds.

## Main definitions

* `Succeeds`: A computation gives a result exactly if the statement holds.
* `Encoding.Accepts`: An expression can be encoded on a side.
* `Expr.Placed`: Every quantifier stands where a formula is expected.

## Theorems

* `succeeds_encode`: Which expressions can be encoded.
* `HasType.accepts_iff`: Well-typed expressions can if their quantifiers are placed.
* `encodings_agree`: Both encodings, where there are any, mean the expression.
-/

namespace Vouch

/-- Every pair that is remembered has a formula. -/
def Encoder.Paired (k : Encoder) : Prop :=
  ∀ x p, k.pairs.find? x = some p → ∃ f, p.formula = some f

/-- The computation gives a result exactly if the statement holds, whatever was
    encoded before, and remembers pairs only. -/
def Succeeds {α : Type} (m : Encode α) (p : Prop) : Prop :=
  ∀ k : Encoder, k.Paired →
    (m.run.run k).2.Paired ∧ ((∃ a, (m.run.run k).1 = .ok a) ↔ p)

section Rules

variable {α β : Type} {p q : Prop}

theorem succeeds_pure (a : α) : Succeeds (pure a) True :=
  fun _ hk => ⟨hk, iff_of_true ⟨a, rfl⟩ trivial⟩

theorem succeeds_throw (err : ConditionError) : Succeeds (throw err : Encode α) False :=
  fun _ hk => ⟨hk, iff_of_false (fun ⟨_, h⟩ => by cases h) id⟩

theorem succeeds_lift (m : Fresh α) : Succeeds (liftM m) True :=
  fun k hk => ⟨hk, iff_of_true ⟨(m.run k.supply).1, rfl⟩ trivial⟩

variable {m : Encode α} {f : α → Encode β}

theorem Succeeds.congr (hm : Succeeds m p) (h : p ↔ q) : Succeeds m q :=
  fun k hk => ⟨(hm k hk).1, (hm k hk).2.trans h⟩

/-- Both computations have to give a result, the second whatever the first gives. -/
theorem succeeds_bind (hm : Succeeds m p) (hf : ∀ a, Succeeds (f a) q) :
    Succeeds (m >>= f) (p ∧ q) := by
  intro k hk
  rw [ExceptT.run_bind, StateT.run_bind]
  rcases hm k hk with ⟨hpaired, hiff⟩
  rw [← hiff]
  rcases hmk : m.run.run k with ⟨r, k'⟩
  rw [hmk] at hpaired
  cases r with
  | error err =>
    refine ⟨hpaired, iff_of_false ?_ ?_⟩
    · rintro ⟨b, hb⟩
      cases hb
    · rintro ⟨⟨a, ha⟩, _⟩
      cases ha
  | ok a =>
    rcases hf a k' hpaired with ⟨hpaired', hiff'⟩
    rw [← hiff']
    exact ⟨hpaired', fun h => ⟨⟨a, rfl⟩, h⟩, fun h => h.2⟩

theorem Succeeds.andThen (hm : Succeeds m p) (hf : ∀ a, Succeeds (f a) True) :
    Succeeds (m >>= f) p :=
  (succeeds_bind hm hf).congr (and_true p).to_iff

theorem Succeeds.both {n : Encode α} (hm : Succeeds m p) (hn : Succeeds n q) (f : α → α → Fresh β) :
    Succeeds (m >>= fun a => n >>= fun b => liftM (f a b)) (p ∧ q) :=
  succeeds_bind hm fun a => hn.andThen fun b => succeeds_lift (f a b)

theorem succeeds_mapM {p : α → Prop} (hf : ∀ a, Succeeds (f a) (p a)) :
    ∀ {as : List α}, Succeeds (as.mapM f) (∀ a ∈ as, p a)
  | [] => by
    rw [List.mapM_nil]
    exact (succeeds_pure []).congr (by simp)
  | a :: as => by
    rw [List.mapM_cons, List.forall_mem_cons]
    refine succeeds_bind (hf a) fun b => ?_
    exact (succeeds_mapM hf).andThen fun bs => succeeds_pure (b :: bs)

end Rules

/-- The side on which an operand is encoded if the operation is encoded on the
    given one. The type is that of the operands. -/
def BinOp.operandSide (op : BinOp) (type : Option Ty) : Side → Side
  | .value => .value
  | .formula =>
    match op with
    | .and | .or | .implies | .iff => .formula
    | .eq | .neq => if type matches some .bool then .formula else .value
    | _ => .value

namespace Encoding

variable (c : Encoding)

mutual

/-- The expression can be encoded on the side. -/
def Accepts : Side → List (String × Ty) → Expr → Prop
  | _, _, .bool _ => True
  | side, _, .int _ => side = .value
  | _, Γ, .var x => ∃ T, c.scope.infer Γ (.var x) = some T
  | side, Γ, .unary .neg e => side = .value ∧ Accepts .value Γ e
  | side, Γ, .unary .not e => Accepts side Γ e
  | side, Γ, .binary op l r =>
    (side = .formula → op.isBoolean = true) ∧
      Accepts (op.operandSide (c.operandType Γ l r) side) Γ l ∧
      Accepts (op.operandSide (c.operandType Γ l r) side) Γ r
  | _, Γ, .app _ args => AcceptsAll Γ args
  | _, Γ, .select m idx => Accepts .value Γ m ∧ AcceptsAll Γ idx
  | _, Γ, .update m idx v => Accepts .value Γ m ∧ AcceptsAll Γ idx ∧ Accepts .value Γ v
  | side, Γ, .all vars body =>
    side = .formula ∧ Accepts .formula (Γ ++ vars.map fun v => (v.name, v.ty)) body

/-- The expressions can all be encoded as values. -/
def AcceptsAll : List (String × Ty) → List Expr → Prop
  | _, [] => True
  | Γ, e :: es => Accepts .value Γ e ∧ AcceptsAll Γ es

end

end Encoding

section Encoding

variable {c : Encoding} {Γ : List (String × Ty)}

theorem succeeds_variableType (x : String) :
    Succeeds (c.variableType x) (∃ T, c.scope.varType? x = some T) := by
  unfold Encoding.variableType
  cases h : c.scope.varType? x with
  | some T => exact (succeeds_pure T).congr (by simp)
  | none => exact (succeeds_throw _).congr (by simp)

theorem succeeds_varTerms_bind {α : Type} {x : String} {T : Ty} {f : VarTerms → Encode α}
    {p : Prop} (hf : ∀ v, v.formula.isSome = T.isBool → Succeeds (f v) p) :
    Succeeds (c.varTerms x T >>= f) p := by
  cases hT : T.isBool with
  | false =>
    rw [Encoding.varTerms, hT]
    intro k hk
    let made := (Term.var (valueName x) T.sort).run k.supply
    exact hf { term := made.1 } hT.symm { k with supply := made.2 } hk
  | true =>
    intro k hk
    rw [ExceptT.run_bind, StateT.run_bind, Ty.isBool_iff.mp hT, varTerms_run]
    cases hfind : k.pairs.find? x with
    | some v =>
      rcases hk x v hfind with ⟨g, hg⟩
      exact hf v (by rw [hg, hT]; rfl) k hk
    | none =>
      refine hf ((c.linkedPair x).run k.supply).1 hT.symm _ fun y v hv => ?_
      rw [NameMap.find?_insert] at hv
      split at hv
      · exact ⟨_, congrArg VarTerms.formula (Option.some.inj hv).symm⟩
      · exact hk y v hv

theorem succeeds_encodeVar (side : Side) (x : String) :
    Succeeds (c.encodeVar side Γ x) (∃ T, c.scope.infer Γ (.var x) = some T) := by
  unfold Encoding.encodeVar
  cases hbound : Scope.boundType? Γ x with
  | some T =>
    refine ((succeeds_lift _).andThen fun t => succeeds_lift _).congr (iff_of_true trivial ⟨T, ?_⟩)
    rw [Scope.infer, hbound]
    rfl
  | none =>
    have hinfer : c.scope.infer Γ (.var x) = c.scope.varType? x := by
      rw [Scope.infer, hbound]
      rfl
    rw [hinfer]
    refine (succeeds_variableType x).andThen fun T => succeeds_varTerms_bind fun p _ => ?_
    cases side with
    | value => exact succeeds_lift _
    | formula =>
      cases p.formula with
      | none => exact succeeds_lift _
      | some f => exact succeeds_pure f

variable {l r : Side → Encode Term} {p q : Side → Prop} {type : Option Ty}

theorem succeeds_equal (type : Option Ty) (hl : ∀ side, Succeeds (l side) (p side))
    (hr : ∀ side, Succeeds (r side) (q side)) :
    Succeeds (Encoding.binaryFormula.equal c type l r)
      (p (BinOp.eq.operandSide type .formula) ∧ q (BinOp.eq.operandSide type .formula)) := by
  cases type with
  | none => exact (hl .value).both (hr .value) _
  | some T =>
    cases T with
    | bool => exact (hl .formula).both (hr .formula) _
    | int | map _ _ | named _ => exact (hl .value).both (hr .value) _

theorem succeeds_binaryFormula {op : BinOp} {err : ConditionError}
    (hl : ∀ side, Succeeds (l side) (p side)) (hr : ∀ side, Succeeds (r side) (q side)) :
    Succeeds (c.binaryFormula op type err l r)
      (op.isBoolean = true ∧ p (op.operandSide type .formula) ∧
        q (op.operandSide type .formula)) := by
  have hformulas : ∀ f : Term → Term → Fresh Term, Succeeds (l .formula >>= fun a =>
      r .formula >>= fun b => liftM (f a b)) (true = true ∧ p .formula ∧ q .formula) :=
    fun f => ((hl .formula).both (hr .formula) f).congr (by simp)
  have hvalues : ∀ f : Term → Term → Fresh Term, Succeeds (l .value >>= fun a =>
      r .value >>= fun b => liftM (f a b)) (true = true ∧ p .value ∧ q .value) :=
    fun f => ((hl .value).both (hr .value) f).congr (by simp)
  -- Comparisons the other way encode the second operand first.
  have hswapped : ∀ f : Term → Term → Fresh Term, Succeeds (r .value >>= fun b =>
      l .value >>= fun a => liftM (f b a)) (true = true ∧ p .value ∧ q .value) :=
    fun f => ((hr .value).both (hl .value) f).congr (by simp [and_comm])
  have hequal := succeeds_equal (c := c) type hl hr
  cases op with
  | and | or | implies | iff => exact hformulas _
  | eq => exact hequal.congr (by simp [BinOp.isBoolean])
  | neq =>
    have hnot := hequal.andThen fun t => succeeds_lift (c.theory.not t)
    exact hnot.congr (by simp [BinOp.isBoolean, BinOp.operandSide])
  | lt | le => exact hvalues _
  | gt | ge => exact hswapped _
  | add | sub | mul | div | mod => exact (succeeds_throw _).congr (by simp [BinOp.isBoolean])

theorem succeeds_binaryValue {op : BinOp} {l r : Encode Term} {p q : Prop} (hl : Succeeds l p)
    (hr : Succeeds r q) : Succeeds (c.binaryValue op type l r) (p ∧ q) := by
  have hnegated : ∀ {m n : Encode Term} {p q : Prop} (f : Term → Term → Fresh Term)
      (g : Term → Fresh Term), Succeeds m p → Succeeds n q → Succeeds (m >>= fun a =>
        n >>= fun b => liftM (f a b) >>= fun t => liftM (g t)) (p ∧ q) :=
    fun f g hm hn => succeeds_bind hm fun a => hn.andThen fun b =>
      (succeeds_lift _).andThen fun t => succeeds_lift _
  cases op with
  | neq => exact hnegated _ _ hl hr
  | le => exact (hnegated _ _ hr hl).congr and_comm
  | ge => exact hnegated _ _ hl hr
  | gt => exact (hr.both hl _).congr and_comm
  | _ => exact hl.both hr _

mutual

/-- Terms can always be made, so only the tests of the encoder decide. -/
theorem succeeds_encode : ∀ (e : Expr) {side : Side} {Γ : List (String × Ty)},
    Succeeds (c.encode side Γ e) (c.Accepts side Γ e)
  | .bool b, side, Γ => by
    cases side <;> exact succeeds_lift _
  | .int n, side, Γ => by
    rw [Encoding.Accepts]
    cases side with
    | formula => exact (succeeds_throw _).congr (by simp)
    | value => exact (succeeds_lift _).congr (by simp)
  | .var x, side, Γ => succeeds_encodeVar side x
  | .unary .neg e, side, Γ => by
    rw [Encoding.Accepts]
    cases side with
    | formula => exact (succeeds_throw _).congr (by simp)
    | value => exact ((succeeds_encode e).andThen fun t => succeeds_lift _).congr (by simp)
  | .unary .not e, side, Γ => by
    cases side <;> exact (succeeds_encode e).andThen fun t => succeeds_lift _
  | .binary op l r, side, Γ => by
    rw [Encoding.Accepts]
    cases side with
    | formula =>
      exact (succeeds_binaryFormula (fun side => succeeds_encode l)
        fun side => succeeds_encode r).congr (by simp)
    | value =>
      exact (succeeds_binaryValue (succeeds_encode l) (succeeds_encode r)).congr
        (by simp [BinOp.operandSide])
  | .app f args, side, Γ => by
    exact (succeeds_encodeAll args).andThen fun ts =>
      (succeeds_lift _).andThen fun t => succeeds_lift _
  | .select m idx, side, Γ => by
    exact succeeds_bind (succeeds_encode m) fun t => (succeeds_encodeAll idx).andThen fun ts =>
      (succeeds_lift _).andThen fun t => succeeds_lift _
  | .update m idx v, side, Γ => by
    exact succeeds_bind (succeeds_encode m) fun t => succeeds_bind (succeeds_encodeAll idx)
      fun ts => (succeeds_encode v).andThen fun u =>
        (succeeds_lift _).andThen fun t => succeeds_lift _
  | .all vars body, side, Γ => by
    rw [Encoding.Accepts]
    cases side with
    | value => exact (succeeds_throw _).congr (by simp)
    | formula =>
      exact (succeeds_bind (succeeds_mapM fun v => succeeds_lift _) fun ts =>
        (succeeds_encode body).andThen fun t => succeeds_lift _).congr (by simp)

theorem succeeds_encodeAll : ∀ (es : List Expr) {Γ : List (String × Ty)},
    Succeeds (c.encodeAll Γ es) (c.AcceptsAll Γ es)
  | [], Γ => succeeds_pure []
  | e :: es, Γ => by
    refine succeeds_bind (succeeds_encode e) fun t => ?_
    exact (succeeds_encodeAll es).andThen fun ts => succeeds_pure (t :: ts)

end

end Encoding

namespace Expr

mutual

/-- Every quantifier stands where a formula is expected, the expression itself
    standing on the given side. -/
def Placed (s : Scope) : Side → List (String × Ty) → Expr → Prop
  | _, _, .bool _ => True
  | _, _, .int _ => True
  | _, _, .var _ => True
  | _, Γ, .unary .neg e => Placed s .value Γ e
  | side, Γ, .unary .not e => Placed s side Γ e
  | side, Γ, .binary op l r =>
    Placed s (op.operandSide (s.infer Γ l) side) Γ l ∧
      Placed s (op.operandSide (s.infer Γ l) side) Γ r
  | _, Γ, .app _ args => PlacedAll s Γ args
  | _, Γ, .select m idx => Placed s .value Γ m ∧ PlacedAll s Γ idx
  | _, Γ, .update m idx v => Placed s .value Γ m ∧ PlacedAll s Γ idx ∧ Placed s .value Γ v
  | side, Γ, .all vars body =>
    side = .formula ∧ Placed s .formula (Γ ++ vars.map fun v => (v.name, v.ty)) body

/-- No expression of the list contains a quantifier where a value is expected. -/
def PlacedAll (s : Scope) : List (String × Ty) → List Expr → Prop
  | _, [] => True
  | Γ, e :: es => Placed s .value Γ e ∧ PlacedAll s Γ es

end

end Expr

theorem BinOp.Takes.bool_of_operandSide {op : BinOp} {T : Ty} {side : Side} (h : op.Takes T)
    (hside : op.operandSide (some T) side = .formula) : T = .bool := by
  cases side with
  | value => cases hside
  | formula =>
    cases op with
    | and | or | implies | iff => exact h
    | eq | neq =>
      cases T with
      | bool => rfl
      | _ => cases hside
    | _ => cases hside

theorem BinOp.isBoolean_of_result {op : BinOp} (h : op.result = .bool) : op.isBoolean = true := by
  cases hop : op.isBoolean with
  | true => rfl
  | false =>
    rw [BinOp.result, hop] at h
    cases h

mutual

/-- A well-typed expression is encoded exactly if its quantifiers stand where
    formulas are expected. -/
theorem HasType.accepts_iff {c : Encoding} : ∀ {e : Expr} {Γ : List (String × Ty)} {T : Ty}
    {side : Side}, HasType c.scope Γ e T → (side = .formula → T = .bool) →
    (c.Accepts side Γ e ↔ e.Placed c.scope side Γ)
  | .bool _, _, _, _, _, _ => by rw [Encoding.Accepts, Expr.Placed]
  | .int _, _, _, side, .int, hside => by
    rw [Encoding.Accepts, Expr.Placed]
    cases side with
    | formula => exact absurd (hside rfl) (by simp)
    | value => simp
  | .var x, _, T, _, .var hx, _ => by
    rw [Encoding.Accepts, Expr.Placed]
    exact iff_of_true ⟨T, hx⟩ trivial
  | .unary .neg e, _, _, side, .neg he, hside => by
    rw [Encoding.Accepts, Expr.Placed, he.accepts_iff (by simp)]
    cases side with
    | formula => exact absurd (hside rfl) (by simp)
    | value => simp
  | .unary .not e, _, _, side, .not he, _ => by
    rw [Encoding.Accepts, Expr.Placed, he.accepts_iff fun _ => rfl]
  | .binary op l r, Γ, _, side, .binary hop hl hr, hside => by
    have htype : c.operandType Γ l r = c.scope.infer Γ l := by
      rw [Encoding.operandType, hl.infer]
      rfl
    rw [Encoding.Accepts, Expr.Placed, htype, hl.infer,
      hl.accepts_iff hop.bool_of_operandSide, hr.accepts_iff hop.bool_of_operandSide]
    exact and_iff_right fun h => BinOp.isBoolean_of_result (hside h)
  | .app _ _, _, _, _, .app _ hargs, _ => by
    rw [Encoding.Accepts, Expr.Placed, hargs.acceptsAll_iff]
  | .select _ _, _, _, _, .select hm hidx, _ => by
    rw [Encoding.Accepts, Expr.Placed, hm.accepts_iff (by simp), hidx.acceptsAll_iff]
  | .update _ _ _, _, _, _, .update hm hidx hv, _ => by
    rw [Encoding.Accepts, Expr.Placed, hm.accepts_iff (by simp), hidx.acceptsAll_iff,
      hv.accepts_iff (by simp)]
  | .all _ _, _, _, _, .all hbody, _ => by
    rw [Encoding.Accepts, Expr.Placed, hbody.accepts_iff fun _ => rfl]

theorem HaveTypes.acceptsAll_iff {c : Encoding} : ∀ {es : List Expr} {Γ : List (String × Ty)}
    {Ts : List Ty}, HaveTypes c.scope Γ es Ts →
    (c.AcceptsAll Γ es ↔ Expr.PlacedAll c.scope Γ es)
  | [], _, _, _ => by rw [Encoding.AcceptsAll, Expr.PlacedAll]
  | _ :: _, _, _, .cons he hes => by
    rw [Encoding.AcceptsAll, Expr.PlacedAll, he.accepts_iff (by simp), hes.acceptsAll_iff]

end

section Agreement

variable {c : Encoding} {Γ : List (String × Ty)} {e : Expr} {T : Ty}

open Classical in
theorem exists_reads {s : Scope} (hs : s.PlainNames) (I : Interp) (Γ : List (String × Ty))
    (st : Assignment I.Value) : ∃ ρ, s.Reads I Γ ρ st := by
  refine ⟨fun n => if h : ∃ x, n = valueName x then st h.choose else st n,
    fun x T _ => ?_, fun x _ hx => ?_⟩
  · have h : ∃ y, valueName x = valueName y := ⟨x, rfl⟩
    rw [dif_pos h, ← valueName_inj h.choose_spec]
  · have h : ¬ ∃ y, x = valueName y := fun ⟨y, hy⟩ => plainName_ne_valueName (hs x _ hx) hy
    rw [dif_neg h]

theorem encode_exact (hth : c.theory.Advances) (hs : c.scope.PlainNames)
    (htype : HasType c.scope Γ e T) (hplain : e.Plain) {W : Stock} {k : Encoder}
    (hk : W.Serves k) (side : Side) (hside : side = .formula → T = .bool) :
    ((∃ t, ((c.encode side Γ e).run.run k).1 = .ok t) ↔ e.Placed c.scope side Γ) ∧
      ∀ t, ((c.encode side Γ e).run.run k).1 = .ok t →
        ∀ (I : Interp) (ρ st : Assignment I.Value), c.scope.Fits I Γ st →
          c.scope.Reads I Γ ρ st → t.eval I ρ = I.value c.scope e Γ st := by
  have hpaired : k.Paired := fun x p hp => ((hk.pairs x p hp).formula rfl).imp fun _ hf => hf.1
  refine ⟨(succeeds_encode e k hpaired).2.trans (htype.accepts_iff hside), fun t ht => ?_⟩
  rcases encodes_encode hth hs e htype hplain hside k ⟨hk.supply, hk.pairs⟩ with
    ⟨X, _, _, hmeans, _⟩
  exact (hmeans t ht).eval

/-- Both encodings of an expression have its meaning, under any quantified
    variables, in every state, and whatever was encoded before. A boolean
    expression is encoded as a formula exactly if its quantifiers stand where
    formulas are expected, and any expression as a value exactly if it has no
    quantifier. A boolean with both encodings holds as a formula exactly if its
    value is the true one. -/
theorem encodings_agree (hth : c.theory.Advances) (hs : c.scope.PlainNames)
    (htype : HasType c.scope Γ e T) (hplain : e.Plain) {W : Stock} {k : Encoder}
    (hk : W.Serves k) :
    (T = .bool →
      ((∃ f, ((c.encode .formula Γ e).run.run k).1 = .ok f) ↔ e.Placed c.scope .formula Γ) ∧
      ∀ f, ((c.encode .formula Γ e).run.run k).1 = .ok f →
        ∀ (I : Interp) (ρ st : Assignment I.Value), c.scope.Fits I Γ st →
          c.scope.Reads I Γ ρ st →
          (I.Holds (f.eval I ρ) ↔ I.Holds (I.value c.scope e Γ st))) ∧
    (((∃ t, ((c.encode .value Γ e).run.run k).1 = .ok t) ↔ e.Placed c.scope .value Γ) ∧
      ∀ t, ((c.encode .value Γ e).run.run k).1 = .ok t →
        ∀ (I : Interp) (ρ st : Assignment I.Value), c.scope.Fits I Γ st →
          c.scope.Reads I Γ ρ st → t.eval I ρ = I.value c.scope e Γ st) ∧
    (T = .bool → ∀ f t, ((c.encode .formula Γ e).run.run k).1 = .ok f →
      ((c.encode .value Γ e).run.run k).1 = .ok t →
        ∀ (I : Interp) (ρ st : Assignment I.Value), c.scope.Fits I Γ st →
          c.scope.Reads I Γ ρ st → (I.Holds (f.eval I ρ) ↔ t.eval I ρ = I.bool true)) := by
  have hvalue := encode_exact hth hs htype hplain hk .value (by simp)
  have hformula : T = .bool → _ := fun hT =>
    encode_exact hth hs htype hplain hk .formula fun _ => hT
  refine ⟨fun hT => ⟨(hformula hT).1, fun f hf I ρ st hst hρ => ?_⟩, hvalue,
    fun hT f t hf ht I ρ st hst hρ => ?_⟩
  · rw [(hformula hT).2 f hf I ρ st hst hρ]
  · rw [(hformula hT).2 f hf I ρ st hst hρ, hvalue.2 t ht I ρ st hst hρ]
    rfl

/-- A truth value, and a name that is bound to a number further in. -/
def shadowedScope : Scope :=
  { globals := .ofList [("b", .bool), ("n", .bool)] }

/-- Whether all numbers below the bound one are negative if the truth value is
    what comparing the bound one with zero gives. -/
def shadowedExpr : Expr :=
  .binary .implies (.eq (.var "b") (.le (.var "n") (.int 0)))
    (.all [⟨"b", .int⟩] (.binary .implies (.lt (.var "b") (.var "n")) (.lt (.var "b") (.int 0))))

theorem encodings_agree_shadowed :
    HasType shadowedScope [("n", .int)] shadowedExpr .bool ∧
    ∃ f, (((Encoding.mk .standard shadowedScope).encode .formula [("n", .int)]
        shadowedExpr).run.run {}).1 = .ok f ∧
      ∀ (I : Interp) (st : Assignment I.Value), shadowedScope.Fits I [("n", .int)] st →
        ∃ ρ, shadowedScope.Reads I [("n", .int)] ρ st ∧
          (I.Holds (f.eval I ρ) ↔
            I.Holds (I.value shadowedScope shadowedExpr [("n", .int)] st)) := by
  have hs : shadowedScope.PlainNames := Scope.plainNames_of_keys (by decide)
  have hcompare : HasType shadowedScope [("n", .int)]
      (.eq (.var "b") (.le (.var "n") (.int 0))) .bool :=
    .binary (T := .bool) trivial (.var rfl) (.binary (T := .int) rfl (.var rfl) .int)
  have hbody : HasType shadowedScope [("n", .int), ("b", .int)]
      (.binary .implies (.lt (.var "b") (.var "n")) (.lt (.var "b") (.int 0))) .bool :=
    .binary (T := .bool) rfl (.binary (T := .int) rfl (.var rfl) (.var rfl))
      (.binary (T := .int) rfl (.var rfl) .int)
  have htype : HasType shadowedScope [("n", .int)] shadowedExpr .bool :=
    .binary (T := .bool) rfl hcompare (.all hbody)
  have hagree := encodings_agree (c := ⟨.standard, shadowedScope⟩) (k := {})
    Theory.advances_standard hs htype (by unfold Expr.Plain; decide)
    ⟨Stock.fits_empty {}, fun _ _ h => by cases h⟩
  have hplaced : shadowedExpr.Placed shadowedScope .formula [("n", .int)] := by
    simp [shadowedExpr, Expr.Placed, Expr.eq, Expr.le, Expr.lt, BinOp.operandSide]
  rcases hagree.1 rfl with ⟨hiff, hmeans⟩
  rcases hiff.mpr hplaced with ⟨f, hf⟩
  refine ⟨htype, f, hf, fun I st hst => ?_⟩
  rcases exists_reads hs I [("n", .int)] st with ⟨ρ, hρ⟩
  exact ⟨ρ, hρ, hmeans f hf I ρ st hst hρ⟩

end Agreement

end Vouch
