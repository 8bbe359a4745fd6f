import Vouch.Proofs.Names.Generated
import Vouch.Proofs.Term.Algebra

/-!
# Meaning of Expressions

Types and values of expressions, by the rules of the language and not by way of their
encodings.

## Main definitions

* `Expr.parts`: The expressions that an expression is made of.
* `HasType`: The typing rules.
* `Interp.value`: The value of an expression in a state.

## Theorems

* `Expr.induction`: Variables, quantifiers, and everything else by its parts.
* `HasType.dom_value`: Well-typed expressions have values of their type.
* `HasType.value_congr`: These depend on the variables in scope only.
-/

namespace Vouch

open List

namespace Expr

/-! ### Parts -/

/-- The expressions that the expression is made of. -/
def parts : Expr → List Expr
  | bool _ | int _ | var _ => []
  | unary _ e => [e]
  | binary _ l r => [l, r]
  | app _ args => args
  | select m idx => m :: idx
  | update m idx v => m :: v :: idx
  | all _ body => [body]

/-- The expression with other parts. -/
def mapParts (f : Expr → Expr) : Expr → Expr
  | unary op e => unary op (f e)
  | binary op l r => binary op (f l) (f r)
  | app g args => app g (args.map f)
  | select m idx => select (f m) (idx.map f)
  | update m idx v => update (f m) (idx.map f) (f v)
  | all vars body => all vars (f body)
  | e => e

/-- The expression is neither a variable nor a quantifier, so all its variables are in
    its parts. -/
def IsOperator : Expr → Prop
  | var _ | all _ _ => False
  | _ => True

theorem induction {P : Expr → Prop} (var : ∀ x, P (.var x))
    (all : ∀ vars body, P body → P (.all vars body))
    (operator : ∀ e : Expr, e.IsOperator → (∀ c ∈ e.parts, P c) → P e) : ∀ e, P e
  | .var x => var x
  | .all vars body => all vars body (induction var all operator body)
  | .bool b => operator (.bool b) trivial (forall_mem_nil _)
  | .int n => operator (.int n) trivial (forall_mem_nil _)
  | .unary op e => operator (.unary op e) trivial
    (forall_mem_singleton.mpr (induction var all operator e))
  | .binary op l r => operator (.binary op l r) trivial (forall_mem_cons.mpr
    ⟨induction var all operator l, forall_mem_singleton.mpr (induction var all operator r)⟩)
  | .app f args => operator (.app f args) trivial fun c (_ : c ∈ args) =>
    induction var all operator c
  | .select m idx => operator (.select m idx) trivial (forall_mem_cons.mpr
    ⟨induction var all operator m, fun c (_ : c ∈ idx) => induction var all operator c⟩)
  | .update m idx v => operator (.update m idx v) trivial (forall_mem_cons.mpr
    ⟨induction var all operator m, forall_mem_cons.mpr
      ⟨induction var all operator v, fun c (_ : c ∈ idx) => induction var all operator c⟩⟩)

theorem mapParts_id (e : Expr) : e.mapParts id = e := by
  cases e <;> simp [Expr.mapParts]

/-! ### Names and free variables -/

section Names

variable {a : String} {e : Expr}

mutual

theorem mem_addNames (a : String) : ∀ (e : Expr) (s : NameSet),
    a ∈ e.addNames s ↔ a ∈ s ∨ a ∈ e.names
  | .bool _, s => by simp [names, addNames]
  | .int _, s => by simp [names, addNames]
  | .var x, s => by simp [names, addNames, or_comm]
  | .unary _ e, s => by
    rw [names, addNames, addNames, mem_addNames a e, mem_addNames a e ∅]
    simp
  | .binary _ l r, s => by
    rw [names, addNames, addNames, mem_addNames a r, mem_addNames a l,
      mem_addNames a r (l.addNames ∅), mem_addNames a l ∅]
    simp [or_assoc]
  | .app _ args, s => by
    rw [names, addNames, addNames, mem_addNamesList a args, mem_addNamesList a args ∅]
    simp
  | .select m idx, s => by
    rw [names, addNames, addNames, mem_addNamesList a idx, mem_addNames a m,
      mem_addNamesList a idx (m.addNames ∅), mem_addNames a m ∅]
    simp [or_assoc]
  | .update m idx v, s => by
    rw [names, addNames, addNames, mem_addNames a v, mem_addNamesList a idx, mem_addNames a m,
      mem_addNames a v (addNamesList idx (m.addNames ∅)), mem_addNamesList a idx (m.addNames ∅),
      mem_addNames a m ∅]
    simp [or_assoc]
  | .all vars body, s => by
    rw [names, addNames, addNames, mem_addNames a body,
      mem_addNames a body (NameSet.insertAll ∅ (vars.map VarDecl.name))]
    simp [or_assoc]

theorem mem_addNamesList (a : String) : ∀ (es : List Expr) (s : NameSet),
    a ∈ addNamesList es s ↔ a ∈ s ∨ ∃ e ∈ es, a ∈ e.names
  | [], s => by simp [addNamesList]
  | e :: es, s => by
    rw [addNamesList, mem_addNamesList a es, mem_addNames a e, exists_mem_cons_iff, or_assoc]

end

theorem mem_names_var {x : String} : a ∈ (var x).names ↔ a = x := by
  simp [names, addNames]

theorem mem_names_all {vars : List VarDecl} {body : Expr} :
    a ∈ (all vars body).names ↔ a ∈ vars.map VarDecl.name ∨ a ∈ body.names := by
  rw [names, addNames, mem_addNames, NameSet.mem_insertAll]
  simp

theorem IsOperator.mem_names (h : e.IsOperator) : a ∈ e.names ↔ ∃ c ∈ e.parts, a ∈ c.names := by
  cases e with
  | var | all => exact h.elim
  | _ =>
    rw [names, addNames]
    simp [parts, mem_addNames, mem_addNamesList, or_comm, or_left_comm]

/-- No variable of the expression, bound or free, has `$$` in its name. -/
def Plain (e : Expr) : Prop :=
  ∀ x ∈ e.names, PlainName x

theorem Plain.part (h : e.Plain) (he : e.IsOperator) {c : Expr} (hc : c ∈ e.parts) : c.Plain :=
  fun x hx => h x (he.mem_names.mpr ⟨c, hc, hx⟩)

theorem Plain.all {vars : List VarDecl} {body : Expr} (h : Plain (.all vars body)) :
    (∀ v ∈ vars, PlainName v.name) ∧ body.Plain :=
  ⟨fun _ hv => h _ (mem_names_all.mpr (.inl (mem_map_of_mem hv))),
    fun x hx => h x (mem_names_all.mpr (.inr hx))⟩

mutual

theorem mem_addFree (a : String) : ∀ (e : Expr) (bound : List String) (s : NameSet),
    a ∈ e.addFree bound s ↔ a ∈ s ∨ a ∈ e.freeVars ∧ a ∉ bound
  | .bool _, bound, s => by simp [freeVars, addFree]
  | .int _, bound, s => by simp [freeVars, addFree]
  | .var x, bound, s => by
    by_cases hx : x ∈ bound
    · have hne : a = x → a ∈ bound := fun h => h ▸ hx
      simpa [freeVars, addFree, hx] using fun h => absurd (hne h)
    · have hne : a = x → a ∉ bound := fun h => h ▸ hx
      simp only [freeVars, addFree, contains_iff_mem, if_neg hx, not_mem_nil,
        if_false, NameSet.mem_insert, NameSet.not_mem_empty, or_false]
      tauto
  | .unary _ e, bound, s => by
    rw [freeVars, addFree, addFree, mem_addFree a e bound s, mem_addFree a e [] ∅]
    simp
  | .binary _ l r, bound, s => by
    rw [freeVars, addFree, addFree, mem_addFree a r, mem_addFree a l,
      mem_addFree a r [] _, mem_addFree a l [] ∅]
    simp [or_and_right, or_assoc]
  | .app _ args, bound, s => by
    rw [freeVars, addFree, addFree, mem_addFreeList a args, mem_addFreeList a args [] ∅]
    simp
  | .select m idx, bound, s => by
    rw [freeVars, addFree, addFree, mem_addFreeList a idx, mem_addFree a m,
      mem_addFreeList a idx [] _, mem_addFree a m [] ∅]
    simp [or_and_right, or_assoc]
  | .update m idx v, bound, s => by
    rw [freeVars, addFree, addFree, mem_addFree a v, mem_addFreeList a idx, mem_addFree a m,
      mem_addFree a v [] _, mem_addFreeList a idx [] _, mem_addFree a m [] ∅]
    simp [or_and_right, or_assoc]
  | .all vars body, bound, s => by
    rw [freeVars, addFree, addFree, mem_addFree a body, mem_addFree a body _ ∅]
    simp only [NameSet.not_mem_empty, mem_append, not_mem_nil]
    tauto

theorem mem_addFreeList (a : String) : ∀ (es : List Expr) (bound : List String) (s : NameSet),
    a ∈ addFreeList bound es s ↔ a ∈ s ∨ (∃ e ∈ es, a ∈ e.freeVars) ∧ a ∉ bound
  | [], bound, s => by simp [addFreeList]
  | e :: es, bound, s => by
    rw [addFreeList, mem_addFreeList a es, mem_addFree a e]
    simp only [exists_mem_cons_iff]
    tauto

end

@[simp]
theorem mem_freeVars_var {x : String} : a ∈ (var x).freeVars ↔ a = x := by
  simp [freeVars, addFree]

theorem mem_freeVars_all {vars : List VarDecl} {body : Expr} :
    a ∈ (all vars body).freeVars ↔ a ∈ body.freeVars ∧ a ∉ vars.map VarDecl.name := by
  rw [freeVars, addFree, mem_addFree]
  simp

theorem IsOperator.mem_freeVars (h : e.IsOperator) :
    a ∈ e.freeVars ↔ ∃ c ∈ e.parts, a ∈ c.freeVars := by
  cases e with
  | var | all => exact h.elim
  | _ =>
    rw [freeVars, addFree]
    simp [parts, mem_addFree, mem_addFreeList, or_comm, or_left_comm]

theorem IsOperator.forall_free (he : e.IsOperator) {P : String → Prop}
    (h : ∀ x ∈ e.freeVars, P x) : ∀ c ∈ e.parts, ∀ x ∈ c.freeVars, P x :=
  fun c hc x hx => h x (he.mem_freeVars.mpr ⟨c, hc, hx⟩)

theorem mem_names_of_mem_freeVars (h : a ∈ e.freeVars) : a ∈ e.names := by
  induction e using induction with
  | var x => exact mem_names_var.mpr (mem_freeVars_var.mp h)
  | all vars body ih => exact mem_names_all.mpr (.inr (ih (mem_freeVars_all.mp h).1))
  | operator e he ih =>
    rcases he.mem_freeVars.mp h with ⟨c, hc, ha⟩
    exact he.mem_names.mpr ⟨c, hc, ih c hc ha⟩

end Names

end Expr

/-- The operator takes operands of the type. -/
def BinOp.Takes : BinOp → Ty → Prop
  | .and, T | .or, T | .implies, T | .iff, T => T = .bool
  | .eq, _ | .neq, _ => True
  | .lt, T | .le, T | .gt, T | .ge, T => T = .int
  | .add, T | .sub, T | .mul, T | .div, T | .mod, T => T = .int

/-- The type of what the operator gives. -/
def BinOp.result (op : BinOp) : Ty :=
  if op.isBoolean then .bool else .int

mutual

/-- The typing rules. The bound variables are listed from the outermost to the
    innermost. -/
inductive HasType (s : Scope) : List (String × Ty) → Expr → Ty → Prop where
  | bool {Γ : List (String × Ty)} {b : Bool} : HasType s Γ (.bool b) .bool
  | int {Γ : List (String × Ty)} {n : Int64} : HasType s Γ (.int n) .int
  | var {Γ : List (String × Ty)} {x : String} {T : Ty} : s.infer Γ (.var x) = some T →
      HasType s Γ (.var x) T
  | neg {Γ : List (String × Ty)} {e : Expr} : HasType s Γ e .int → HasType s Γ (.unary .neg e) .int
  | not {Γ : List (String × Ty)} {e : Expr} : HasType s Γ e .bool →
      HasType s Γ (.unary .not e) .bool
  | binary {Γ : List (String × Ty)} {op : BinOp} {l r : Expr} {T : Ty} : op.Takes T →
      HasType s Γ l T → HasType s Γ r T → HasType s Γ (.binary op l r) op.result
  | app {Γ : List (String × Ty)} {f : String} {d : FunctionDecl} {args : List Expr} :
      s.function? f = some d → HaveTypes s Γ args d.args →
      HasType s Γ (.app f args) d.result
  | select {Γ : List (String × Ty)} {m : Expr} {idx : List Expr} {indices : List Ty}
      {element : Ty} : HasType s Γ m (.map indices element) →
      HaveTypes s Γ idx indices → HasType s Γ (.select m idx) element
  | update {Γ : List (String × Ty)} {m v : Expr} {idx : List Expr} {indices : List Ty}
      {element : Ty} : HasType s Γ m (.map indices element) →
      HaveTypes s Γ idx indices → HasType s Γ v element →
      HasType s Γ (.update m idx v) (.map indices element)
  | all {Γ : List (String × Ty)} {vars : List VarDecl} {body : Expr} :
      HasType s (Γ ++ vars.map fun v => (v.name, v.ty)) body .bool →
      HasType s Γ (.all vars body) .bool

/-- The expressions have the types, one by one. -/
inductive HaveTypes (s : Scope) : List (String × Ty) → List Expr → List Ty → Prop where
  | nil {Γ : List (String × Ty)} : HaveTypes s Γ [] []
  | cons {Γ : List (String × Ty)} {e : Expr} {T : Ty} {es : List Expr} {Ts : List Ty} :
      HasType s Γ e T → HaveTypes s Γ es Ts → HaveTypes s Γ (e :: es) (T :: Ts)

end

variable {s : Scope} {Γ : List (String × Ty)} {I : Interp}

theorem HasType.infer : ∀ {e : Expr} {T : Ty},
    HasType s Γ e T → s.infer Γ e = some T
  | .bool _, _, .bool => rfl
  | .int _, _, .int => rfl
  | .var _, _, .var h => h
  | .unary .neg _, _, .neg _ => rfl
  | .unary .not _, _, .not _ => rfl
  | .binary _ _ _, _, .binary _ _ _ => rfl
  | .app _ _, _, .app h _ => by rw [Scope.infer, h, Option.map_some]
  | .select _ _, _, .select hm _ => by rw [Scope.infer, HasType.infer hm]
  | .update _ _ _, _, .update hm _ _ => by rw [Scope.infer, HasType.infer hm]
  | .all _ _, _, .all _ => rfl

/-- The sort of an expression, arbitrary values if it has no type. -/
def Scope.sortAt (s : Scope) (Γ : List (String × Ty)) (e : Expr) : TermSort :=
  ((s.infer Γ e).map Ty.sort).getD .value

namespace Interp

mutual

/-- The value of an expression in a state. -/
noncomputable def value (I : Interp) (s : Scope) :
    Expr → List (String × Ty) → Assignment I.Value → I.Value
  | .bool b, _, _ => I.bool b
  | .int n, _, _ => I.int n.toInt
  | .var x, _, st => st x
  | .unary .neg e, Γ, st => I.int (- I.toInt (value I s e Γ st))
  | .unary .not e, Γ, st => I.truth (¬ I.Holds (value I s e Γ st))
  | .binary op l r, Γ, st => I.binary op (value I s l Γ st) (value I s r Γ st)
  | .app f args, Γ, st => I.function f (s.sortAt Γ (.app f args)) (values I s args Γ st)
  | .select m idx, Γ, st =>
    I.select (s.sortAt Γ (.select m idx)) (value I s m Γ st) (I.tuple (values I s idx Γ st))
  | .update m idx v, Γ, st =>
    I.update (value I s m Γ st) (I.tuple (values I s idx Γ st)) (value I s v Γ st)
  | .all vars body, Γ, st =>
    I.truth (I.ForAll (vars.map fun v => (v.name, v.ty.sort))
      (fun st => I.Holds (value I s body (Γ ++ vars.map fun v => (v.name, v.ty)) st)) st)

/-- The values of a list of expressions. -/
noncomputable def values (I : Interp) (s : Scope) :
    List Expr → List (String × Ty) → Assignment I.Value → List I.Value
  | [], _, _ => []
  | e :: es, Γ, st => value I s e Γ st :: values I s es Γ st

end

end Interp

namespace Scope

/-- The state gives every variable a value of its type. -/
def Fits (I : Interp) (s : Scope) (Γ : List (String × Ty)) (st : Assignment I.Value) : Prop :=
  ∀ x T, s.infer Γ (.var x) = some T → I.Dom T.sort (st x)

theorem boundType?_concat (Γ : List (String × Ty)) (x y : String) (T : Ty) :
    boundType? (Γ ++ [(x, T)]) y = if y = x then some T else boundType? Γ y := by
  unfold boundType?
  rw [reverse_append, reverse_singleton, singleton_append, lookup_cons]
  by_cases h : y = x
  · simp [h]
  · have hb : (y == x) = false := by simpa using h
    simp [h, hb]

theorem infer_var_concat (s : Scope) (Γ : List (String × Ty)) (x y : String) (T : Ty) :
    s.infer (Γ ++ [(x, T)]) (.var y) = if y = x then some T else s.infer Γ (.var y) := by
  rw [infer, infer, boundType?_concat]
  split <;> rfl

theorem boundType?_append (Γ Δ : List (String × Ty)) (x : String) :
    boundType? (Γ ++ Δ) x = (boundType? Δ x).orElse fun _ => boundType? Γ x := by
  unfold boundType?
  rw [reverse_append, lookup_append]
  cases List.lookup x Δ.reverse <;> rfl

variable {x : String} {Γ : List (String × Ty)}

theorem boundType?_of_not_mem (h : x ∉ Γ.map (·.1)) : boundType? Γ x = none := by
  unfold boundType?
  refine lookup_eq_none_iff.mpr fun p hp => ?_
  have hne : x ≠ p.1 := fun hx => h (hx ▸ mem_map_of_mem (mem_reverse.mp hp))
  simpa using hne

theorem infer_var_append {s : Scope} {Δ : List (String × Ty)} (h : x ∉ Δ.map (·.1)) :
    s.infer (Γ ++ Δ) (.var x) = s.infer Γ (.var x) := by
  rw [infer, infer, boundType?_append, boundType?_of_not_mem h]
  rfl

theorem exists_boundType? (h : x ∈ Γ.map (·.1)) : ∃ T, boundType? Γ x = some T := by
  rcases mem_map.mp h with ⟨p, hp, rfl⟩
  rw [← Option.isSome_iff_exists, boundType?, Option.isSome_iff_ne_none]
  intro hnone
  have hne := lookup_eq_none_iff.mp hnone p (mem_reverse.mpr hp)
  simp at hne

theorem infer_var_append_congr {s : Scope} {Γ' Δ : List (String × Ty)}
    (h : x ∉ Δ.map (·.1) → s.infer Γ (.var x) = s.infer Γ' (.var x)) :
    s.infer (Γ ++ Δ) (.var x) = s.infer (Γ' ++ Δ) (.var x) := by
  by_cases hx : x ∈ Δ.map (·.1)
  · rcases exists_boundType? hx with ⟨T, hT⟩
    rw [infer, infer, boundType?_append, boundType?_append, hT]
    rfl
  · rw [infer_var_append hx, infer_var_append hx]
    exact h hx

theorem infer_var_nil (s : Scope) (x : String) : s.infer [] (.var x) = s.varType? x := rfl

theorem Fits.update {I : Interp} {s : Scope} {st : Assignment I.Value} (h : s.Fits I Γ st)
    {T : Ty} {v : I.Value} (hv : I.Dom T.sort v) :
    s.Fits I (Γ ++ [(x, T)]) (Function.update st x v) := by
  intro y U hy
  rw [infer_var_concat] at hy
  by_cases hyx : y = x
  · rw [if_pos hyx, Option.some.injEq] at hy
    rw [hyx, Function.update_self, ← hy]
    exact hv
  · rw [if_neg hyx] at hy
    rw [Function.update_of_ne hyx]
    exact h y U hy

end Scope

theorem Interp.dom_binary (I : Interp) (op : BinOp) (v w : I.Value) :
    I.Dom op.result.sort (I.binary op v w) := by
  cases op <;> exact ⟨_, rfl⟩

theorem HasType.dom_value {e : Expr} {T : Ty} (h : HasType s Γ e T) {st : Assignment I.Value}
    (hst : s.Fits I Γ st) : I.Dom T.sort (I.value s e Γ st) := by
  -- Applications and reads have the sort that is inferred for them.
  have hinfer := h.infer
  cases h with
  | bool | int => exact ⟨_, rfl⟩
  | var hx =>
    rw [Interp.value]
    exact hst _ T hx
  | neg | not => exact ⟨_, rfl⟩
  | binary =>
    rw [Interp.value]
    exact I.dom_binary _ _ _
  | app =>
    rw [Interp.value, Scope.sortAt, hinfer]
    exact I.dom_function _ _ _
  | select =>
    rw [Interp.value, Scope.sortAt, hinfer]
    exact I.dom_select _ _ _
  | update => trivial
  | all =>
    rw [Interp.value]
    exact I.dom_truth _

/-- The states give the variables in scope the same values. -/
def Scope.Agree (I : Interp) (s : Scope) (Γ : List (String × Ty)) (st st' : Assignment I.Value) :
    Prop :=
  ∀ x T, s.infer Γ (.var x) = some T → st x = st' x

theorem Interp.values_eq_map (I : Interp) (s : Scope) (Γ : List (String × Ty))
    (st : Assignment I.Value) (es : List Expr) :
    I.values s es Γ st = es.map fun e => I.value s e Γ st := by
  induction es with
  | nil => rw [Interp.values, map_nil]
  | cons e es ih => rw [Interp.values, ih, map_cons]

/-- Other parts with the same types and values make an expression with the same type
    and value. -/
theorem Expr.IsOperator.value_mapParts {s' : Scope} (hfunctions : s'.functions = s.functions)
    {e : Expr} (he : e.IsOperator) {f : Expr → Expr} {Δ : List (String × Ty)}
    {st st' : Assignment I.Value}
    (h : ∀ c ∈ e.parts,
      s'.infer Δ (f c) = s.infer Γ c ∧ I.value s' (f c) Δ st' = I.value s c Γ st) :
    s'.infer Δ (e.mapParts f) = s.infer Γ e ∧
      I.value s' (e.mapParts f) Δ st' = I.value s e Γ st := by
  have hvalues : ∀ es : List Expr, (∀ c ∈ es, c ∈ e.parts) →
      I.values s' (es.map f) Δ st' = I.values s es Γ st := by
    intro es hes
    rw [I.values_eq_map, I.values_eq_map, map_map]
    exact map_congr_left fun c hc => (h c (hes c hc)).2
  cases e with
  | var | all => exact he.elim
  | bool | int => simp [mapParts, Scope.infer, Interp.value]
  | unary op e =>
    cases op <;>
    · rw [mapParts, Interp.value, Interp.value, (h e (by simp [parts])).2]
      exact ⟨rfl, rfl⟩
  | binary op l r =>
    rw [mapParts, Interp.value, Interp.value, (h l (by simp [parts])).2, (h r (by simp [parts])).2]
    exact ⟨rfl, rfl⟩
  | app g args =>
    rw [mapParts, Interp.value, Interp.value, hvalues args fun c hc => hc, Scope.sortAt,
      Scope.sortAt, Scope.infer, Scope.infer, Scope.function?, Scope.function?, hfunctions]
    exact ⟨rfl, rfl⟩
  | select m idx =>
    have hm := h m (by simp [parts])
    rw [mapParts, Interp.value, Interp.value, hm.2, hvalues idx fun c hc => by simp [parts, hc],
      Scope.sortAt, Scope.sortAt, Scope.infer, Scope.infer, hm.1]
    exact ⟨rfl, rfl⟩
  | update m idx v =>
    have hm := h m (by simp [parts])
    rw [mapParts, Interp.value, Interp.value, hm.2, hvalues idx fun c hc => by simp [parts, hc],
      (h v (by simp [parts])).2, Scope.infer, Scope.infer, hm.1]
    exact ⟨rfl, rfl⟩

theorem Expr.value_congr_free {e : Expr} : ∀ {Γ Δ : List (String × Ty)} {st st' : Assignment I.Value},
    (∀ x ∈ e.freeVars, s.infer Δ (var x) = s.infer Γ (var x) ∧ st' x = st x) →
    s.infer Δ e = s.infer Γ e ∧ I.value s e Δ st' = I.value s e Γ st := by
  induction e using Expr.induction with
  | var x =>
    intro Γ Δ st st' h
    rw [Interp.value, Interp.value]
    exact h x (by simp)
  | all vars body ih =>
    intro Γ Δ st st' h
    refine ⟨rfl, ?_⟩
    rw [Interp.value, Interp.value]
    congr 1
    -- Bound names have the types and values of the binders on both sides.
    rw [← I.forAll_algebra, ← I.forAll_algebra]
    refine propext (I.algebra.forAll_congr (fun x => x ∈ body.freeVars)
      (fun x hx hnot => ?_) fun ρ τ hagree => ?_)
    · exact (h x (mem_freeVars_all.mpr ⟨hx, by simpa using hnot⟩)).2
    · rw [(ih fun x hx => ⟨?_, hagree x hx⟩).2]
      refine Scope.infer_var_append_congr fun hnot => ?_
      exact (h x (mem_freeVars_all.mpr ⟨hx, by simpa using hnot⟩)).1
  | operator e he ih =>
    intro Γ Δ st st' h
    have hsame := he.value_mapParts (rfl : s.functions = s.functions) (f := id) fun c hc =>
      ih c hc (he.forall_free h c hc)
    rwa [mapParts_id] at hsame

theorem HaveTypes.of_mem {e : Expr} : ∀ {es : List Expr} {Ts : List Ty}, HaveTypes s Γ es Ts →
    e ∈ es → ∃ T, HasType s Γ e T
  | _ :: _, T :: _, .cons he hes, hmem => by
    rcases mem_cons.mp hmem with rfl | hmem
    · exact ⟨T, he⟩
    · exact hes.of_mem hmem

theorem HasType.part {e c : Expr} {T : Ty} (h : HasType s Γ e T) (he : e.IsOperator)
    (hc : c ∈ e.parts) : ∃ U, HasType s Γ c U := by
  cases h with
  | bool | int => exact absurd hc not_mem_nil
  | var | all => exact he.elim
  | neg h | not h => exact ⟨_, mem_singleton.mp hc ▸ h⟩
  | binary _ hl hr =>
    rcases mem_pair.mp hc with rfl | rfl
    · exact ⟨_, hl⟩
    · exact ⟨_, hr⟩
  | app _ hargs => exact hargs.of_mem hc
  | select hm hidx =>
    rcases mem_cons.mp hc with rfl | hc
    · exact ⟨_, hm⟩
    · exact hidx.of_mem hc
  | update hm hidx hv =>
    rcases mem_cons.mp hc with rfl | hc
    · exact ⟨_, hm⟩
    · rcases mem_cons.mp hc with rfl | hc
      · exact ⟨_, hv⟩
      · exact hidx.of_mem hc

theorem HasType.in_scope {x : String} {e : Expr} : ∀ {Γ : List (String × Ty)} {T : Ty},
    HasType s Γ e T → x ∈ e.freeVars → ∃ U, s.infer Γ (.var x) = some U := by
  induction e using Expr.induction with
  | var y =>
    intro Γ T h hx
    rw [Expr.mem_freeVars_var.mp hx]
    exact ⟨T, h.infer⟩
  | all vars body ih =>
    intro Γ T h hx
    rcases Expr.mem_freeVars_all.mp hx with ⟨hx, hnot⟩
    cases h with
    | all hbody =>
      rcases ih hbody hx with ⟨U, hU⟩
      rw [Scope.infer_var_append (by simpa using hnot)] at hU
      exact ⟨U, hU⟩
  | operator e he ih =>
    intro Γ T h hx
    rcases he.mem_freeVars.mp hx with ⟨c, hc, hx⟩
    rcases h.part he hc with ⟨U, hU⟩
    exact ih c hc hU hx

/-- States that agree on what is in scope give an expression the same value. -/
theorem HasType.value_congr {e : Expr} {T : Ty} {st st' : Assignment I.Value}
    (he : HasType s Γ e T) (h : s.Agree I Γ st st') : I.value s e Γ st = I.value s e Γ st' := by
  refine (Expr.value_congr_free fun x hx => ⟨rfl, ?_⟩).2
  rcases he.in_scope hx with ⟨U, hU⟩
  exact h x U hU

end Vouch
