import Vouch.Proofs.Lang.Substitution

/-!
# Substituting Twice

A routine renames the parameters of its contract, and whoever compares the routine with
a call replaces the new parameters by the actual ones. Substituting again needs binders
that are fit for it.

## Main definitions

* `Expr.Renames`: Every variable is replaced by a variable.

## Theorems

* `Expr.value_subst_subst`: Two steps are the substitution that a call makes at once.
-/

namespace Vouch

open List

namespace Expr

/-! ### Binders after a substitution -/

section Renaming

variable {coming : List String}

theorem mem_renameBinders_of_mem {w : VarDecl} (hw : w.name ∉ coming) :
    ∀ {vars : List VarDecl} {taken : List String} {σ : NameMap Expr},
    w ∈ vars → w ∈ (renameBinders coming vars taken σ).1
  | v :: vs, taken, σ, h => by
    by_cases hv : v.name ∈ coming
    · rw [renameBinders_cons_of_mem hv]
      have hne : w ≠ v := fun heq => hw (heq ▸ hv)
      exact mem_cons_of_mem _ (mem_renameBinders_of_mem hw (mem_of_ne_of_mem hne h))
    · rw [renameBinders_cons_of_not_mem hv]
      rcases mem_cons.mp h with rfl | h
      · exact mem_cons_self ..
      · exact mem_cons_of_mem _ (mem_renameBinders_of_mem hw h)

variable {x : String} {σ : NameMap Expr}

theorem find?_renameBinders (hx : x ∉ coming) :
    ∀ {vars : List VarDecl} {taken : List String} {σ : NameMap Expr},
    (renameBinders coming vars taken σ).2.find? x = σ.find? x
  | [], _, _ => rfl
  | v :: vs, taken, σ => by
    by_cases hv : v.name ∈ coming
    · have hne : x ≠ v.name := fun heq => hx (heq ▸ hv)
      rw [renameBinders_cons_of_mem hv, find?_renameBinders hx, NameMap.find?_insert, if_neg hne]
    · rw [renameBinders_cons_of_not_mem hv]
      exact find?_renameBinders hx

theorem mem_incoming_eraseAll {names : List String} (h : x ∈ incoming (σ.eraseAll names)) :
    x ∈ incoming σ := by
  rcases mem_flatMap.mp h with ⟨e, he, hx⟩
  rcases mem_map.mp he with ⟨p, hp, rfl⟩
  exact mem_flatMap.mpr ⟨p.2, mem_map_of_mem (mem_filter.mp hp).1, hx⟩

theorem mem_incoming_insert {n m : String} (h : x ∈ incoming (σ.insert n (var m))) :
    x = m ∨ x ∈ incoming σ := by
  rcases mem_flatMap.mp h with ⟨e, he, hx⟩
  rcases mem_map.mp he with ⟨p, hp, rfl⟩
  rcases mem_cons.mp hp with rfl | hp
  · exact .inl (mem_freeVars_var.mp hx)
  · exact .inr (mem_incoming_eraseAll (mem_flatMap.mpr ⟨p.2, mem_map_of_mem hp, hx⟩))

theorem mem_incoming_renameBinders :
    ∀ {vars : List VarDecl} {taken : List String} {σ : NameMap Expr}, x ∈ taken →
    x ∈ incoming (renameBinders coming vars taken σ).2 → x ∈ incoming σ
  | [], _, _, _, h => h
  | v :: vs, taken, σ, ht, h => by
    by_cases hv : v.name ∈ coming
    · rw [renameBinders_cons_of_mem hv] at h
      have hfirst := mem_incoming_renameBinders (mem_cons_of_mem _ ht) h
      refine (mem_incoming_insert hfirst).resolve_left fun heq => ?_
      exact (freshNumbered_numbered v.name "$q" taken).1 (heq ▸ ht)
    · rw [renameBinders_cons_of_not_mem hv] at h
      exact mem_incoming_renameBinders ht h

theorem pairwise_renameBinders {K : String → Prop} : ∀ {vars : List VarDecl}
    {taken : List String} {σ : NameMap Expr}, (∀ x ∈ coming, x ∈ taken) →
    (∀ w ∈ vars, w.name ∉ coming → K w.name ∨ ¬ Numbered w.name) →
    (renameBinders coming vars taken σ).1.Pairwise fun v w => K w.name ∨ ¬ Variant v.name w.name
  | [], _, _, _, _ => .nil
  | v :: vs, taken, σ, htaken, hkept => by
    -- A first binder is not a name that was renamed, since that one was coming in.
    have hfirst : ∀ (n : String) (taken' : List String) (σ' : NameMap Expr), n ∉ coming →
        ∀ w ∈ (renameBinders coming vs taken' σ').1, K w.name ∨ ¬ Variant n w.name := by
      intro n taken' σ' hn w hw
      rcases mem_renameBinders hw with ⟨hw, hnot⟩ | ⟨u, _, hcoming, hvariant, _⟩
      · exact (hkept w (by simp [hw]) hnot).imp_right fun h hvariant => h ⟨n, hvariant⟩
      · exact .inr fun hvariant' => hn (hvariant'.unique hvariant ▸ hcoming)
    have hrest : ∀ w ∈ vs, w.name ∉ coming → K w.name ∨ ¬ Numbered w.name :=
      fun w hw => hkept w (by simp [hw])
    by_cases hv : v.name ∈ coming
    · have hnew := (freshNumbered_numbered v.name "$q" taken).1
      rw [renameBinders_cons_of_mem hv]
      exact .cons (hfirst _ _ _ fun hc => hnew (htaken _ hc))
        (pairwise_renameBinders (fun x hx => mem_cons_of_mem _ (htaken x hx)) hrest)
    · rw [renameBinders_cons_of_not_mem hv]
      exact .cons (hfirst _ _ _ hv) (pairwise_renameBinders htaken hrest)

end Renaming

section Names

variable {x : String} {σ : NameMap Expr}

theorem untouched_inner {vars : List VarDecl} {body : Expr} (hx : x ∈ body.names)
    (hfind : (σ.eraseAll (vars.map VarDecl.name)).find? x = none)
    (hcoming : x ∉ incoming (σ.eraseAll (vars.map VarDecl.name))) :
    let inner := σ.eraseAll (vars.map VarDecl.name)
    let coming := incoming inner
    let taken := body.names.toList ++ coming ++ σ.keys
    (renameBinders coming vars taken inner).2.find? x = none ∧
      x ∉ incoming (renameBinders coming vars taken inner).2 := by
  refine ⟨(find?_renameBinders hcoming).trans hfind, fun h => hcoming ?_⟩
  exact mem_incoming_renameBinders (by simp [NameSet.mem_def.mp hx]) h

theorem mem_names_subst {e : Expr} : ∀ {σ : NameMap Expr}, x ∈ e.names → σ.find? x = none →
    x ∉ incoming σ → x ∈ (e.subst σ).names := by
  induction e using Expr.induction with
  | var y =>
    intro σ h hfind _
    rw [← mem_names_var.mp h, subst_var_of_none hfind, mem_names_var]
  | all vars body ih =>
    intro σ h hfind hout
    have hcoming : x ∉ incoming (σ.eraseAll (vars.map VarDecl.name)) :=
      fun h => hout (mem_incoming_eraseAll h)
    have hinner : (σ.eraseAll (vars.map VarDecl.name)).find? x = none := by
      rw [NameMap.find?_eraseAll, hfind]
      exact ite_self none
    rw [subst, mem_names_all]
    rcases mem_names_all.mp h with h | h
    · rcases mem_map.mp h with ⟨v, hv, rfl⟩
      exact .inl (mem_map_of_mem (mem_renameBinders_of_mem hcoming hv))
    · have huntouched := untouched_inner h hinner hcoming
      exact .inr (ih h huntouched.1 huntouched.2)
  | operator e he ih =>
    intro σ h hfind hout
    rcases he.mem_names.mp h with ⟨c, hc, h⟩
    rw [(he.isOperator_subst σ).mem_names, he.parts_subst]
    exact ⟨c.subst σ, mem_map_of_mem hc, ih c hc h hfind hout⟩

/-- Every variable is replaced by a variable. -/
def Renames (σ : NameMap Expr) : Prop :=
  ∀ x, ∃ y, (var x).subst σ = var y

theorem Renames.insert (h : Renames σ) (n m : String) : Renames (σ.insert n (var m)) := by
  intro x
  by_cases hx : x = n
  · rw [hx, subst_var_insert_self]
    exact ⟨m, rfl⟩
  · rw [subst_var_insert_of_ne hx]
    exact h x

theorem Renames.eraseAll (h : Renames σ) (names : List String) : Renames (σ.eraseAll names) := by
  intro x
  rw [subst, NameMap.find?_eraseAll]
  by_cases hx : x ∈ names
  · rw [if_pos hx]
    exact ⟨x, rfl⟩
  · rw [if_neg hx]
    exact h x

theorem Renames.renameBinders {coming : List String} : ∀ {vars : List VarDecl}
    {taken : List String} {σ : NameMap Expr}, Renames σ →
    Renames (renameBinders coming vars taken σ).2
  | [], _, _, h => h
  | v :: vs, taken, σ, h => by
    by_cases hv : v.name ∈ coming
    · rw [renameBinders_cons_of_mem hv]
      exact (h.insert _ _).renameBinders
    · rw [renameBinders_cons_of_not_mem hv]
      exact h.renameBinders

theorem orderedBinders_subst {e : Expr} : ∀ {σ : NameMap Expr}, e.ClearBinders → Renames σ →
    (e.subst σ).OrderedBinders := by
  induction e using Expr.induction with
  | var x =>
    intro σ _ hσ
    rcases hσ x with ⟨y, hy⟩
    rw [hy]
    trivial
  | all vars body ih =>
    intro σ h hσ
    refine ⟨.imp (fun hw => hw.imp_right Or.inl) (pairwise_renameBinders
      (fun x hx => by simp [hx]) fun w hw hout => ?_), ih h.2 (hσ.eraseAll _).renameBinders⟩
    -- A binder that stays is mentioned in the new body if it was in the old one.
    refine (h.1 w hw).imp_left fun hname => ?_
    have hinner : (σ.eraseAll (vars.map VarDecl.name)).find? w.name = none := by
      rw [NameMap.find?_eraseAll, if_pos (mem_map_of_mem hw)]
    have huntouched := untouched_inner hname hinner hout
    exact mem_names_subst hname huntouched.1 huntouched.2
  | operator e he ih =>
    intro σ h hσ
    rw [(he.isOperator_subst σ).orderedBinders_iff, he.parts_subst, forall_mem_map]
    exact fun c hc => ih c hc (he.clearBinders_iff.mp h c hc) hσ

end Names

end Expr

/-! ### Two substitutions in one -/

namespace Scope

/-- The scope without its variables. -/
def bare (s : Scope) : Scope :=
  { functions := s.functions }

/-- The variables with the types of their replacements. -/
def replaced (s : Scope) (σ : NameMap Expr) (Δ : List (String × Ty)) (vars : List String) :
    List (String × Ty) :=
  vars.filterMap fun x => (s.infer Δ ((Expr.var x).subst σ)).map fun T => (x, T)

variable {s : Scope} {σ : NameMap Expr} {Δ : List (String × Ty)} {vars : List String} {x : String}

theorem mem_replaced {T : Ty} : (x, T) ∈ s.replaced σ Δ vars ↔
    x ∈ vars ∧ s.infer Δ ((Expr.var x).subst σ) = some T := by
  simp [replaced]

theorem infer_replaced (hx : x ∈ vars) :
    s.bare.infer (s.replaced σ Δ vars) (.var x) = s.infer Δ ((Expr.var x).subst σ) := by
  have hbound : s.bare.infer (s.replaced σ Δ vars) (.var x) =
      boundType? (s.replaced σ Δ vars) x := by
    rw [infer]
    cases boundType? (s.replaced σ Δ vars) x <;> rfl
  rw [hbound]
  cases hT : boundType? (s.replaced σ Δ vars) x with
  | some T =>
    rcases lookup_eq_some_iff.mp hT with ⟨before, after, hlist, _⟩
    have hmem : (x, T) ∈ s.replaced σ Δ vars := by
      rw [← mem_reverse, hlist]
      simp
    exact (mem_replaced.mp hmem).2.symm
  | none =>
    -- A type would have been found.
    cases hU : s.infer Δ ((Expr.var x).subst σ) with
    | none => rfl
    | some U =>
      rcases exists_boundType? (mem_map_of_mem (mem_replaced.mpr ⟨hx, hU⟩)) with ⟨T, hT'⟩
      cases hT.symm.trans hT'

theorem stands_replaced {I : Interp} (st : Assignment I.Value) (hx : x ∈ vars) :
    s.bare.Stands I (s.replaced σ Δ vars) (fun y => I.value s ((Expr.var y).subst σ) Δ st) s Δ st x
      ((Expr.var x).subst σ) :=
  ⟨(infer_replaced hx).symm, rfl⟩

end Scope

/-- Two substitutions, of which the first renames, have the value of one. -/
theorem Expr.value_subst_subst {I : Interp} {s : Scope} {e : Expr} {σ ρ τ : NameMap Expr}
    {Δ : List (String × Ty)} {st : Assignment I.Value} (he : e.ClearBinders) (hσ : Renames σ)
    (h : ∀ x ∈ e.freeVars, ((var x).subst σ).subst ρ = (var x).subst τ) :
    I.value s ((e.subst σ).subst ρ) Δ st = I.value s (e.subst τ) Δ st := by
  -- The names in between: those of the renamed expression, and what variables become.
  let between := (e.subst σ).freeVars.toList ++
    e.freeVars.toList.flatMap fun x => ((var x).subst σ).freeVars.toList
  let Δ₁ := s.replaced ρ Δ between
  let st₁ : Assignment I.Value := fun y => I.value s ((var y).subst ρ) Δ st
  let Δ₂ := s.bare.replaced σ Δ₁ e.freeVars.toList
  let st₂ : Assignment I.Value := fun x => I.value s.bare ((var x).subst σ) Δ₁ st₁
  have hsame : s.functions = s.bare.functions := rfl
  have hsecond : I.value s ((e.subst σ).subst ρ) Δ st = I.value s.bare (e.subst σ) Δ₁ st₁ :=
    (value_subst hsame (orderedBinders_subst he hσ) fun y hy =>
      Scope.stands_replaced st (mem_append_left _ hy)).2
  have hfirst : I.value s.bare (e.subst σ) Δ₁ st₁ = I.value s.bare e Δ₂ st₂ :=
    (value_subst rfl he.ordered fun x hx => Scope.stands_replaced st₁ hx).2
  have hboth : I.value s (e.subst τ) Δ st = I.value s.bare e Δ₂ st₂ := by
    refine (value_subst hsame he.ordered fun x hx => ?_).2
    rcases hσ x with ⟨y, hy⟩
    have hmem : y ∈ between := by
      refine mem_append_right _ (mem_flatMap.mpr ⟨x, hx, ?_⟩)
      rw [hy]
      exact mem_freeVars_var.mpr rfl
    have hstands : s.bare.Stands I Δ₁ st₁ s Δ st y ((var y).subst ρ) :=
      Scope.stands_replaced st hmem
    have htype : s.bare.infer Δ₂ (var x) = s.bare.infer Δ₁ ((var x).subst σ) :=
      Scope.infer_replaced hx
    rw [← h x hx, hy]
    rw [hy] at htype
    refine ⟨hstands.1.trans htype.symm, hstands.2.trans ?_⟩
    change st₁ y = I.value s.bare ((var x).subst σ) Δ₁ st₁
    rw [hy, Interp.value]
  rw [hsecond, hfirst, hboth]

end Vouch
