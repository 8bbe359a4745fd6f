import Vouch.Proofs.Lang.Meaning

/-!
# Substitution and Meaning

A substituted expression has the value of the old expression in the state that gives
each variable the value of its replacement.

## Main definitions

* `Scope.Stands`: An expression stands for a variable.
* `Expr.CalledNow`: What a name is called after binders were renamed.
* `Expr.OrderedBinders`: No later binder decides over a new name.
* `Expr.ClearBinders`: Where a binder has a number it is used.

## Theorems

* `Expr.value_subst`: The value after a substitution.
* `substitution_captures_nothing`: Substitution is evaluating in another state.
-/

namespace Vouch

open List NameMap

namespace Scope

variable {x : String} {Γ Δ : List (String × Ty)}

theorem boundType?_eq_lastBinder? (Γ : List (String × Ty)) (x : String) :
    boundType? Γ x = lastBinder? Γ x := by
  induction Γ with
  | nil => rfl
  | cons p Γ ih =>
    have hfirst : boundType? [p] x = if x = p.1 then some p.2 else none :=
      boundType?_concat [] p.1 x p.2
    rw [← singleton_append, boundType?_append, ih, hfirst, Option.orElse_eq_or]
    rfl

theorem infer_var_of_last {s : Scope} {T : Ty} (h : lastBinder? Δ x = some T) :
    s.infer (Γ ++ Δ) (.var x) = some T := by
  rw [infer, boundType?_append, boundType?_eq_lastBinder? Δ, h]
  rfl

/-- The expression, read in the scope `s'` under `Δ` in the state `st'`, has the
    type and the value of the variable `x`, read in `s` under `Γ` in `st`. -/
def Stands (I : Interp) (s : Scope) (Γ : List (String × Ty)) (st : Assignment I.Value)
    (s' : Scope) (Δ : List (String × Ty)) (st' : Assignment I.Value) (x : String) (r : Expr) :
    Prop :=
  s'.infer Δ r = s.infer Γ (.var x) ∧ I.value s' r Δ st' = st x

end Scope

namespace Expr

variable {I : Interp} {s : Scope}

/-! ### Renaming binders -/

/-- The second name is the first with the mark of renamed binders and a number. -/
def Variant (n x : String) : Prop :=
  ∃ k : Nat, x = n ++ "$q" ++ toString k

/-- The name ends in the mark of renamed binders and a number. -/
def Numbered (x : String) : Prop :=
  ∃ (n : String) (k : Nat), x = n ++ "$q" ++ toString k

mutual

/-- A quantifier binds a name that ends in `$q` and a number only if its body
    mentions the name. -/
def ClearBinders : Expr → Prop
  | .bool _ | .int _ | .var _ => True
  | .unary _ e => ClearBinders e
  | .binary _ l r => ClearBinders l ∧ ClearBinders r
  | .app _ args => ClearBindersAll args
  | .select m idx => ClearBinders m ∧ ClearBindersAll idx
  | .update m idx v => ClearBinders m ∧ ClearBindersAll idx ∧ ClearBinders v
  | .all vars body => (∀ v ∈ vars, v.name ∈ body.names ∨ ¬ Numbered v.name) ∧ ClearBinders body

/-- The same for a list of expressions. -/
def ClearBindersAll : List Expr → Prop
  | [] => True
  | e :: es => ClearBinders e ∧ ClearBindersAll es

end

mutual

/-- A quantifier binds a variant of a name that it has bound before only if its
    body mentions the variant, or with the same type. -/
def OrderedBinders : Expr → Prop
  | .bool _ | .int _ | .var _ => True
  | .unary _ e => OrderedBinders e
  | .binary _ l r => OrderedBinders l ∧ OrderedBinders r
  | .app _ args => OrderedBindersAll args
  | .select m idx => OrderedBinders m ∧ OrderedBindersAll idx
  | .update m idx v => OrderedBinders m ∧ OrderedBindersAll idx ∧ OrderedBinders v
  | .all vars body => vars.Pairwise (fun v w =>
        w.name ∈ body.names ∨ ¬ Variant v.name w.name ∨ w.ty = v.ty) ∧ OrderedBinders body

/-- The same for a list of expressions. -/
def OrderedBindersAll : List Expr → Prop
  | [] => True
  | e :: es => OrderedBinders e ∧ OrderedBindersAll es

end

theorem clearBindersAll_iff {es : List Expr} :
    ClearBindersAll es ↔ ∀ e ∈ es, e.ClearBinders := by
  induction es with
  | nil => simp [ClearBindersAll]
  | cons e es ih => rw [ClearBindersAll, ih, forall_mem_cons]

theorem IsOperator.clearBinders_iff {e : Expr} (h : e.IsOperator) :
    e.ClearBinders ↔ ∀ c ∈ e.parts, c.ClearBinders := by
  cases e with
  | var | all => exact h.elim
  | _ => simp [ClearBinders, clearBindersAll_iff, parts, and_comm]

theorem orderedBindersAll_iff {es : List Expr} :
    OrderedBindersAll es ↔ ∀ e ∈ es, e.OrderedBinders := by
  induction es with
  | nil => simp [OrderedBindersAll]
  | cons e es ih => rw [OrderedBindersAll, ih, forall_mem_cons]

theorem IsOperator.orderedBinders_iff {e : Expr} (h : e.IsOperator) :
    e.OrderedBinders ↔ ∀ c ∈ e.parts, c.OrderedBinders := by
  cases e with
  | var | all => exact h.elim
  | _ => simp [OrderedBinders, orderedBindersAll_iff, parts, and_comm]

theorem ClearBinders.ordered {e : Expr} (h : e.ClearBinders) : e.OrderedBinders := by
  induction e using Expr.induction with
  | var => trivial
  | all vars body ih =>
    refine ⟨pairwise_of_forall_mem_list fun v _ w hw => ?_, ih h.2⟩
    exact (h.1 w hw).imp_right fun hnot => .inl fun hvariant => hnot ⟨v.name, hvariant⟩
  | operator e he ih =>
    exact he.orderedBinders_iff.mpr fun c hc => ih c hc (he.clearBinders_iff.mp h c hc)

variable {coming taken : List String} {vs : List VarDecl} {σ : NameMap Expr} {r : Expr} {x : String}

theorem renameBinders_cons_of_mem {v : VarDecl} (h : v.name ∈ coming) :
    renameBinders coming (v :: vs) taken σ =
      let name := freshNumbered v.name "$q" taken
      let rest := renameBinders coming vs (name :: taken) (σ.insert v.name (var name))
      ({ v with name } :: rest.1, rest.2) :=
  if_pos (contains_iff_mem.mpr h)

theorem renameBinders_cons_of_not_mem {v : VarDecl} (h : v.name ∉ coming) :
    renameBinders coming (v :: vs) taken σ =
      (v :: (renameBinders coming vs taken σ).1, (renameBinders coming vs taken σ).2) :=
  if_neg fun hc => h (contains_iff_mem.mp hc)

theorem subst_var_of_some (h : σ.find? x = some r) : (var x).subst σ = r := by
  rw [subst, h, Option.getD_some]

theorem subst_var_of_none (h : σ.find? x = none) : (var x).subst σ = var x := by
  rw [subst, h, Option.getD_none]

theorem subst_var_congr {σ' : NameMap Expr} (h : σ.find? x = σ'.find? x) :
    (var x).subst σ = (var x).subst σ' := by
  rw [subst, subst, h]

theorem subst_var_insert_of_ne {y : String} (h : x ≠ y) :
    (var x).subst (σ.insert y r) = (var x).subst σ :=
  subst_var_congr (by rw [find?_insert, if_neg h])

theorem subst_var_insert_self : (var x).subst (σ.insert x r) = r :=
  subst_var_of_some (by rw [find?_insert, if_pos rfl])

theorem substList_eq_map (σ : NameMap Expr) (es : List Expr) :
    substList σ es = es.map (subst σ) := by
  induction es with
  | nil => rfl
  | cons e es ih => rw [substList, ih, map_cons]

theorem IsOperator.subst_eq {e : Expr} (h : e.IsOperator) (σ : NameMap Expr) :
    e.subst σ = e.mapParts (subst σ) := by
  cases e with
  | var | all => exact h.elim
  | _ => simp [subst, mapParts, substList_eq_map]

theorem IsOperator.isOperator_subst {e : Expr} (h : e.IsOperator) (σ : NameMap Expr) :
    (e.subst σ).IsOperator := by
  rw [h.subst_eq]
  cases e <;> exact h

theorem IsOperator.parts_subst {e : Expr} (h : e.IsOperator) (σ : NameMap Expr) :
    (e.subst σ).parts = e.parts.map (subst σ) := by
  rw [h.subst_eq]
  cases e <;> rfl

/-! ### Binders after renaming -/

theorem Variant.unique {m n : String} (hm : Variant m x) (hn : Variant n x) : m = n := by
  rcases hm with ⟨j, rfl⟩
  rcases hn with ⟨k, h⟩
  have hlist : m.toList ++ '$' :: 'q' :: (toString j).toList =
      n.toList ++ '$' :: 'q' :: (toString k).toList := by
    simpa using congrArg String.toList h
  have hsplit := dollar_list_inj (dollar_not_mem_cons j) (dollar_not_mem_cons k) hlist
  exact String.toList_inj.mp hsplit.1

section Renaming

variable {coming : List String}

theorem mem_renameBinders {w : VarDecl} : ∀ {vars : List VarDecl} {taken : List String}
    {σ : NameMap Expr}, w ∈ (renameBinders coming vars taken σ).1 →
    (w ∈ vars ∧ w.name ∉ coming) ∨
      ∃ v ∈ vars, v.name ∈ coming ∧ Variant v.name w.name ∧ w.name ∉ taken
  | [], _, _, h => by simp [renameBinders] at h
  | v :: vs, taken, σ, h => by
    by_cases hv : v.name ∈ coming
    · rcases freshNumbered_numbered v.name "$q" taken with ⟨hnew, hvariant⟩
      rw [renameBinders_cons_of_mem hv, mem_cons] at h
      rcases h with rfl | h
      · exact .inr ⟨v, by simp, hv, hvariant, hnew⟩
      · rcases mem_renameBinders h with ⟨hw, hnot⟩ | ⟨u, hu, hcoming, hvariant', hnew'⟩
        · exact .inl ⟨by simp [hw], hnot⟩
        · exact .inr ⟨u, by simp [hu], hcoming, hvariant',
            fun ht => hnew' (mem_cons_of_mem _ ht)⟩
    · rw [renameBinders_cons_of_not_mem hv, mem_cons] at h
      rcases h with rfl | h
      · exact .inl ⟨by simp, hv⟩
      · rcases mem_renameBinders h with ⟨hw, hnot⟩ | ⟨u, hu, hrest⟩
        · exact .inl ⟨by simp [hw], hnot⟩
        · exact .inr ⟨u, by simp [hu], hrest⟩

theorem lastBinder?_sorts (vars : List VarDecl) (x : String) :
    lastBinder? (vars.map fun v => (v.name, v.ty.sort)) x =
      (lastBinder? (vars.map fun v => (v.name, v.ty)) x).map Ty.sort := by
  induction vars with
  | nil => rfl
  | cons v vs ih =>
    rw [map_cons, map_cons, lastBinder?, lastBinder?, ih]
    cases lastBinder? (vs.map fun v => (v.name, v.ty)) x with
    | some T => rfl
    | none => split <;> rfl

variable {vs : List VarDecl} {x : String}

theorem lastBinder?_types_head {v : VarDecl} (h : ∀ w ∈ vs, w.name = v.name → w.ty = v.ty) :
    lastBinder? ((v :: vs).map fun v => (v.name, v.ty)) v.name = some v.ty := by
  refine lastBinder?_head fun T hT => ?_
  rcases mem_map.mp hT with ⟨w, hw, heq⟩
  rw [Prod.mk.injEq] at heq
  rw [← heq.2, h w hw heq.1]

theorem find?_renameBinders_of_not_bound :
    ∀ {vars : List VarDecl} {taken : List String} {σ : NameMap Expr},
    x ∉ vars.map VarDecl.name → (renameBinders coming vars taken σ).2.find? x = σ.find? x
  | [], _, _, _ => rfl
  | v :: vs, taken, σ, h => by
    rw [map_cons, mem_cons, not_or] at h
    by_cases hv : v.name ∈ coming
    · rw [renameBinders_cons_of_mem hv, find?_renameBinders_of_not_bound h.2,
        find?_insert, if_neg h.1]
    · rw [renameBinders_cons_of_not_mem hv, find?_renameBinders_of_not_bound h.2]

/-- Of the binders `vars` the new ones are `vars'`, and `x` is now called `n`. -/
structure CalledNow (coming taken : List String) (vars vars' : List VarDecl) (σ : NameMap Expr)
    (x n : String) : Prop where
  subst : (var x).subst σ = var n
  type : lastBinder? (vars'.map fun v => (v.name, v.ty)) n =
    lastBinder? (vars.map fun v => (v.name, v.ty)) x
  name : n = x ∧ x ∉ coming ∨ Variant x n ∧ n ∉ taken

/-- A bound name that occurs in the body keeps its type. Another binder of a new name
    can only be one that stayed, and those do no harm. -/
theorem exists_calledNow : ∀ {vars : List VarDecl} {taken : List String}
    {σ : NameMap Expr}, x ∈ vars.map VarDecl.name → x ∈ taken → (x ∉ coming → σ.find? x = none) →
    vars.Pairwise (fun v w => w.name ∈ taken ∨ ¬ Variant v.name w.name ∨ w.ty = v.ty) →
    ∃ n, CalledNow coming taken vars (renameBinders coming vars taken σ).1
      (renameBinders coming vars taken σ).2 x n
  | v :: vs, taken, σ, hx, htaken, hnone, hordered => by
    rw [pairwise_cons] at hordered
    by_cases hv : v.name ∈ coming
    · rcases freshNumbered_numbered v.name "$q" taken with ⟨hnew, hvariant⟩
      rw [renameBinders_cons_of_mem hv]
      generalize freshNumbered v.name "$q" taken = name at hnew hvariant
      by_cases htail : x ∈ vs.map VarDecl.name
      · have hnone' : x ∉ coming → (σ.insert v.name (var name)).find? x = none := by
          intro hx
          have hne : x ≠ v.name := fun heq => hx (heq ▸ hv)
          rw [find?_insert, if_neg hne, hnone hx]
        rcases exists_calledNow htail (mem_cons_of_mem name htaken) hnone'
          (hordered.2.imp fun hw => hw.imp_left (mem_cons_of_mem name)) with
          ⟨n, hsubst, hlast, hn⟩
        refine ⟨n, hsubst, lastBinder?_tail (by simpa using htail) hlast _ _,
          hn.imp_right fun hn => ?_⟩
        exact ⟨hn.1, fun ht => hn.2 (mem_cons_of_mem name ht)⟩
      · -- The name is bound here for the last time, and the new one stands for it.
        obtain rfl : x = v.name := (mem_cons.mp hx).resolve_right htail
        refine ⟨name, ?_, ?_, .inr ⟨hvariant, hnew⟩⟩
        · rw [subst_var_congr (find?_renameBinders_of_not_bound htail), subst_var_insert_self]
        · rw [lastBinder?_types_head fun w hw hname => ?_,
            lastBinder?_types_head fun w hw hname => ?_]
          · exact absurd (hname ▸ mem_map_of_mem hw) htail
          · rcases mem_renameBinders hw with ⟨hw, _⟩ | ⟨u, _, _, _, hnot⟩
            · have hname : w.name = name := hname
              rcases hordered.1 w hw with ht | hno | hty
              · exact absurd (hname ▸ ht) hnew
              · exact absurd (hname ▸ hvariant) hno
              · exact hty
            · exact absurd (by simp [hname]) hnot
    · rw [renameBinders_cons_of_not_mem hv]
      by_cases htail : x ∈ vs.map VarDecl.name
      · rcases exists_calledNow htail htaken hnone hordered.2 with ⟨n, hsubst, hlast, hn⟩
        exact ⟨n, hsubst, lastBinder?_tail (by simpa using htail) hlast _ _, hn⟩
      · obtain rfl : x = v.name := (mem_cons.mp hx).resolve_right htail
        refine ⟨v.name, ?_, ?_, .inl ⟨rfl, hv⟩⟩
        · rw [subst_var_congr (find?_renameBinders_of_not_bound htail),
            subst_var_of_none (hnone hv)]
        · rw [lastBinder?_types_head fun w hw hname => ?_,
            lastBinder?_types_head fun w hw hname => ?_]
          · exact absurd (hname ▸ mem_map_of_mem hw) htail
          · rcases mem_renameBinders hw with ⟨hw, _⟩ | ⟨u, _, _, _, hnot⟩
            · exact absurd (hname ▸ mem_map_of_mem hw) htail
            · exact absurd (hname ▸ htaken) hnot

end Renaming

section Binding

variable {s' : Scope} {Γ Δ : List (String × Ty)} {st st' : Assignment I.Value}

theorem stands_append {x : String} {r : Expr} {Γ' Δ' : List (String × Ty)}
    {τ τ' : Assignment I.Value} (h : s.Stands I Γ st s' Δ st' x r) (hx : x ∉ Γ'.map (·.1))
    (hτ : τ x = st x) (hr : ∀ y ∈ r.freeVars, y ∉ Δ'.map (·.1) ∧ τ' y = st' y) :
    s.Stands I (Γ ++ Γ') τ s' (Δ ++ Δ') τ' x r := by
  have hfree : ∀ y ∈ r.freeVars,
      s'.infer (Δ ++ Δ') (.var y) = s'.infer Δ (.var y) ∧ τ' y = st' y :=
    fun y hy => ⟨Scope.infer_var_append (hr y hy).1, (hr y hy).2⟩
  have hsame := value_congr_free hfree
  refine ⟨?_, ?_⟩
  · rw [hsame.1, h.1, Scope.infer_var_append hx]
  · rw [hsame.2, h.2, hτ]

/-- Renamed binders, with the renamings substituted, range over the same bodies
    as the old ones. -/
theorem forAll_renameBinders {coming taken : List String} {vars : List VarDecl} {body : Expr}
    {σ : NameMap Expr}
    (hbody : ∀ {σ Γ Δ st st'},
      (∀ x ∈ body.freeVars, s.Stands I Γ st s' Δ st' x ((var x).subst σ)) →
      I.value s' (body.subst σ) Δ st' = I.value s body Γ st)
    (hordered : vars.Pairwise fun v w => w.name ∈ taken ∨ ¬ Variant v.name w.name ∨ w.ty = v.ty)
    (htaken : ∀ x, x ∈ body.freeVars ∨ x ∈ coming → x ∈ taken)
    (hnone : ∀ x ∈ vars.map VarDecl.name, σ.find? x = none)
    (hreads : ∀ x ∈ body.freeVars, x ∉ vars.map VarDecl.name →
      ∀ y ∈ ((var x).subst σ).freeVars, y = x ∨ y ∈ coming)
    (hstands : ∀ x ∈ body.freeVars, x ∉ vars.map VarDecl.name →
      s.Stands I Γ st s' Δ st' x ((var x).subst σ)) :
    I.ForAll ((renameBinders coming vars taken σ).1.map fun v => (v.name, v.ty.sort))
        (fun st => I.Holds (I.value s' (body.subst (renameBinders coming vars taken σ).2)
          (Δ ++ (renameBinders coming vars taken σ).1.map fun v => (v.name, v.ty)) st)) st' ↔
      I.ForAll (vars.map fun v => (v.name, v.ty.sort))
        (fun st => I.Holds (I.value s body (Γ ++ vars.map fun v => (v.name, v.ty)) st)) st := by
  have hbound : ∀ x ∈ vars.map VarDecl.name, x ∈ body.freeVars → ∃ n, CalledNow coming taken vars
      (renameBinders coming vars taken σ).1 (renameBinders coming vars taken σ).2 x n :=
    fun x hx hfree =>
      exists_calledNow hx (htaken x (.inl hfree)) (fun _ => hnone x hx) hordered
  -- A name that is read from outside is not bound after renaming.
  have hclear : ∀ x ∈ body.freeVars, x ∉ vars.map VarDecl.name →
      ∀ y ∈ ((var x).subst σ).freeVars,
        y ∉ (renameBinders coming vars taken σ).1.map VarDecl.name := by
    intro x hx hout y hy hmem
    rcases mem_map.mp hmem with ⟨w, hw, rfl⟩
    rcases hreads x hx hout _ hy with rfl | hcoming
    · rcases mem_renameBinders hw with ⟨hw, _⟩ | ⟨_, _, _, _, hnot⟩
      · exact hout (mem_map_of_mem hw)
      · exact hnot (htaken _ (.inl hx))
    · rcases mem_renameBinders hw with ⟨_, hnot⟩ | ⟨_, _, _, _, hnot⟩
      · exact hnot hcoming
      · exact hnot (htaken _ (.inr hcoming))
  have hother : ∀ x, x ∉ vars.map VarDecl.name →
      (var x).subst (renameBinders coming vars taken σ).2 = (var x).subst σ :=
    fun x hx => subst_var_congr (find?_renameBinders_of_not_bound hx)
  generalize renameBinders coming vars taken σ = p at hbound hclear hother
  have hcalled : ∀ {n x}, x ∈ vars.map VarDecl.name ∧ x ∈ body.freeVars ∧
      (var x).subst p.2 = var n → CalledNow coming taken vars p.1 p.2 x n := by
    intro n x hR
    rcases hbound x hR.1 hR.2.1 with ⟨m, hm⟩
    exact var.inj (hm.subst.symm.trans hR.2.2) ▸ hm
  have htype : ∀ x ∈ vars.map VarDecl.name,
      ∃ T, lastBinder? (vars.map fun v => (v.name, v.ty)) x = some T :=
    fun x hx => Option.ne_none_iff_exists'.mp fun h => lastBinder?_eq_none.mp h (by simpa using hx)
  rw [← I.forAll_algebra, ← I.forAll_algebra]
  refine I.algebra.forAll_carry I.exists_dom
    (R := fun n x => x ∈ vars.map VarDecl.name ∧ x ∈ body.freeVars ∧ (var x).subst p.2 = var n)
    (fun n x hR => ?_) (fun n x x' hR hR' => ?_) (fun n n' x hR hR' => ?_)
    fun τ τ' hτ hτ' hread => ?_
  · rcases htype x hR.1 with ⟨T, hT⟩
    rw [lastBinder?_sorts, lastBinder?_sorts, (hcalled hR).type, hT]
    exact ⟨_, _, rfl, rfl, fun _ => Iff.rfl⟩
  · -- New names are not taken, and they tell the names they were made for.
    rcases (hcalled hR).name with ⟨rfl, _⟩ | ⟨hvariant, hnew⟩
    · rcases (hcalled hR').name with ⟨rfl, _⟩ | ⟨_, hnew⟩
      · rfl
      · exact absurd (htaken _ (.inl hR.2.1)) hnew
    · rcases (hcalled hR').name with ⟨rfl, _⟩ | ⟨hvariant', _⟩
      · exact absurd (htaken _ (.inl hR'.2.1)) hnew
      · exact hvariant.unique hvariant'
  · exact var.inj (hR.2.2.symm.trans hR'.2.2)
  · rw [hbody fun x hx => ?_]
    by_cases hin : x ∈ vars.map VarDecl.name
    · rcases hbound x hin hx with ⟨n, hn, hlast, _⟩
      rcases htype x hin with ⟨T, hT⟩
      rw [hn, Scope.Stands, Scope.infer_var_of_last (hlast.trans hT), Scope.infer_var_of_last hT,
        Interp.value, hread n x ⟨hin, hx, hn⟩]
      exact ⟨rfl, rfl⟩
    · rw [hother x hin]
      refine stands_append (hstands x hx hin) (by simpa using hin)
        (hτ'.eq_of_not_mem _ (by simpa using hin)) fun y hy => ?_
      have hy := hclear x hx hin y hy
      exact ⟨by simpa using hy, hτ.eq_of_not_mem _ (by simpa using hy)⟩

end Binding

/-! ### Substitution -/

/-- A substituted expression has the type and the value of the old one in a
    state where each free variable has those of its replacement. The two scopes may
    declare different variables, but the same functions. -/
theorem value_subst {s' : Scope} (hfunctions : s'.functions = s.functions) {e : Expr} :
    ∀ {σ : NameMap Expr} {Γ Δ : List (String × Ty)} {st st' : Assignment I.Value},
    e.OrderedBinders → (∀ x ∈ e.freeVars, s.Stands I Γ st s' Δ st' x ((var x).subst σ)) →
    s'.infer Δ (e.subst σ) = s.infer Γ e ∧ I.value s' (e.subst σ) Δ st' = I.value s e Γ st := by
  induction e using Expr.induction with
  | var x =>
    intro σ Γ Δ st st' _ h
    rw [Interp.value]
    exact h x (by simp)
  | all vars body ih =>
    intro σ Γ Δ st st' hordered h
    refine ⟨rfl, ?_⟩
    rw [subst, Interp.value, Interp.value]
    congr 1
    have houter : ∀ {x}, x ∉ vars.map VarDecl.name →
        (σ.eraseAll (vars.map VarDecl.name)).find? x = σ.find? x := by
      intro x hx
      rw [find?_eraseAll, if_neg hx]
    refine propext (forAll_renameBinders (fun hstands => (ih hordered.2 hstands).2)
      (hordered.1.imp fun hw => hw.imp_left fun hname => by simp [NameSet.mem_def.mp hname])
      (fun x hx => ?_) (fun x hx => ?_) (fun x hx hout y hy => ?_) fun x hx hout => ?_)
    · rcases hx with hx | hx
      · simp [NameSet.mem_def.mp (mem_names_of_mem_freeVars hx)]
      · simp [hx]
    · rw [find?_eraseAll, if_pos hx]
    · cases hfind : (σ.eraseAll (vars.map VarDecl.name)).find? x with
      | none =>
        rw [subst_var_of_none hfind, mem_freeVars_var] at hy
        exact .inl hy
      | some r =>
        rw [subst_var_of_some hfind] at hy
        exact .inr (mem_flatMap.mpr ⟨r, mem_values_of_find? hfind, hy⟩)
    · rw [subst_var_congr (houter hout)]
      exact h x (mem_freeVars_all.mpr ⟨hx, hout⟩)
  | operator e he ih =>
    intro σ Γ Δ st st' hordered h
    rw [he.subst_eq]
    exact he.value_mapParts hfunctions fun c hc =>
      ih c hc (he.orderedBinders_iff.mp hordered c hc) (he.forall_free h c hc)

end Expr

/-- The state in which every replaced variable has the value of its replacement. -/
noncomputable def Interp.replaced (I : Interp) (s : Scope) (σ : NameMap Expr)
    (Γ : List (String × Ty)) (st : Assignment I.Value) : Assignment I.Value :=
  fun x => match σ.find? x with
    | some r => I.value s r Γ st
    | none => st x

/-- Substitution captures nothing and keeps types. What is put for a variable has the
    type of the variable, and then a substituted expression has the type of the
    old one, and the value of the old one in the state where every replaced variable
    has the value of its replacement. -/
theorem substitution_captures_nothing (I : Interp) (s : Scope) {Γ : List (String × Ty)}
    {e : Expr} {σ : NameMap Expr} (he : e.OrderedBinders)
    (hσ : ∀ x ∈ e.freeVars, ∀ r, σ.find? x = some r → s.infer Γ r = s.infer Γ (.var x))
    (st : Assignment I.Value) :
    s.infer Γ (e.subst σ) = s.infer Γ e ∧
      I.value s (e.subst σ) Γ st = I.value s e Γ (I.replaced s σ Γ st) := by
  refine Expr.value_subst rfl he fun x hx => ?_
  cases hfind : σ.find? x with
  | none =>
    rw [Expr.subst_var_of_none hfind, Scope.Stands, Interp.value, Interp.replaced, hfind]
    exact ⟨rfl, rfl⟩
  | some r =>
    rw [Expr.subst_var_of_some hfind, Scope.Stands, Interp.replaced, hfind]
    exact ⟨hσ x hx r hfind, rfl⟩

/-- No integer is `x`. The second binder is not used, and it is called what the
    first is going to be called if `i` is put for `x`. -/
def noneEqual (unused : Ty) : Expr :=
  .all [⟨"i", .int⟩, ⟨"i$q0", unused⟩] (.unary .not (.binary .eq (.var "i") (.var "x")))

/-- The variable `i` is put for `x`. -/
def iForX : NameMap Expr :=
  NameMap.insert ∅ "x" (.var "i")

/-- Both are integers. -/
def twoIntegers : Scope :=
  { globals := ⟨[("i", .int), ("x", .int)]⟩ }

theorem substitution_captures_nothing_noneEqual :
    (noneEqual .int).OrderedBinders ∧
      (noneEqual .int).subst iForX = .all [⟨"i$q0", .int⟩, ⟨"i$q0", .int⟩]
        (.unary .not (.binary .eq (.var "i$q0") (.var "i"))) ∧
      twoIntegers.infer [] ((noneEqual .int).subst iForX) = twoIntegers.infer [] (noneEqual .int) ∧
      Interp.trees.value twoIntegers ((noneEqual .int).subst iForX) [] (fun _ => Tree.int 0) =
        Interp.trees.value twoIntegers (noneEqual .int) []
          (Interp.trees.replaced twoIntegers iForX [] fun _ => Tree.int 0) := by
  have hordered : (noneEqual .int).OrderedBinders :=
    ⟨pairwise_pair.mpr (.inr (.inr rfl)), trivial, trivial⟩
  refine ⟨hordered, rfl, substitution_captures_nothing _ _ hordered (fun x _ r hr => ?_) _⟩
  rw [iForX, find?_insert] at hr
  split at hr
  · next hx =>
    rw [hx, ← Option.some.inj hr]
    rfl
  · cases hr

theorem substitution_meets_binder :
    Interp.trees.Holds (Interp.trees.value twoIntegers ((noneEqual .bool).subst iForX) []
        fun _ => Tree.int 0) ∧
      ¬ Interp.trees.Holds (Interp.trees.value twoIntegers (noneEqual .bool) []
        (Interp.trees.replaced twoIntegers iForX [] fun _ => Tree.int 0)) := by
  have hsubst : (noneEqual .bool).subst iForX = .all [⟨"i$q0", .int⟩, ⟨"i$q0", .bool⟩]
      (.unary .not (.binary .eq (.var "i$q0") (.var "i"))) := rfl
  rw [hsubst, noneEqual]
  simp only [Interp.value, Interp.binary, Carrier.holds_truth]
  refine ⟨fun _ _ v hv => ?_, fun h => ?_⟩
  · rcases hv with ⟨b, rfl⟩
    exact Tree.noConfusion
  · exact h (Tree.int 0) ⟨0, rfl⟩ (Tree.bool true) ⟨true, rfl⟩ rfl

end Vouch
