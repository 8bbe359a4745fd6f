import Vouch.Proofs.Condition.Versions

/-!
# Substitutions That Move Between States

What a substitution does to the meaning of a term is evaluating the term elsewhere, and
for the substitutions that occur here elsewhere is again a standard assignment, one that
shows the state on the other side of a command.

## Main definitions

* `Subst.Moves`: What a substitution makes of the values of versions.
* `renew`: Variables take the values of new versions.

## Theorems

* `encodes_versions`: Substituting new versions renews.
* `encodes_assignments`: Substituting expressions assigns.
* `Subst.Moves.exists_renewed`: Whatever is wanted on the far side of renewing, there is
  something on the near side that leads to it.
* `builds_moved`: Substituting in a term evaluates it elsewhere.
-/

namespace Vouch

open List Term NameMap

/-- A transformation of values for names, in every interpretation. -/
abbrev Transformation := (I : Interp) → Assignment I.Value → Assignment I.Value

/-- The substitution evaluates to the transformation of the values of versions,
    and brings in terms about versions only. -/
structure Subst.Moves (s : Scope) (g : Transformation) (X : Stock) (σ : Subst) : Prop where
  good : σ.Good X
  incoming : ∀ n, σ.Incoming n → s.Known X.names n
  value : ∀ I ρ, s.Standard I ρ → ∀ N y T, s.Version N y T →
    σ.after I ρ (valueName y) = g I (Assignment.view ρ) y
  formula : ∀ I ρ, s.Standard I ρ → ∀ N y, s.Version N y .bool →
    σ.after I ρ y = g I (Assignment.view ρ) y

/-- The terms stand for a value of the type, on the sides the type has. -/
structure VarTerms.Gives (s : Scope) (T : Ty) (v : Meaning) (X : Stock) (p : VarTerms) : Prop where
  isOver : Over s X p.term
  eval : ∀ I ρ, s.Standard I ρ → p.term.eval I ρ = v I (Assignment.view ρ)
  formula : T = .bool → ∃ f, p.formula = some f ∧ Over s X f ∧
    ∀ I ρ, s.Standard I ρ → f.eval I ρ = v I (Assignment.view ρ)
  value : T ≠ .bool → p.formula = none

section Insert

variable {s : Scope} {W X : Stock}

theorem Subst.after_insert (I : Interp) (σ : Subst) (ρ : Assignment I.Value) (m n : String)
    (r : Term) :
    Subst.after I (σ.insert m r) ρ n = if n = m then r.eval I ρ else σ.after I ρ n := by
  by_cases h : n = m
  · rw [if_pos h, after_of_some (r := r) (by rw [find?_insert, if_pos h])]
  · rw [if_neg h, after, after, find?_insert, if_neg h]

variable {σ : Subst} {g : Transformation}

theorem Subst.good_insert (hσ : σ.Good X) {r : Term} (hr : X.Has r) (n : String) :
    Subst.Good (σ.insert n r) X := by
  intro t ht
  rcases mem_values_insert ht with rfl | ht
  · exact hr
  · exact hσ t ht

theorem Subst.incoming_insert (hσ : ∀ n, σ.Incoming n → s.Known X.names n) {r : Term}
    (hr : Over s X r) (m : String) : ∀ n, Incoming (σ.insert m r) n → s.Known X.names n := by
  intro n hn
  rcases hn.of_insert with hn | hn
  · exact hr.free n hn
  · exact hσ n hn

theorem Subst.Moves.mono (h : σ.Moves s g W) (hWX : W ≤ X) : σ.Moves s g X :=
  ⟨h.good.mono hWX, fun n hn => (h.incoming n hn).mono hWX.2, h.value, h.formula⟩

theorem Subst.moves_empty (s : Scope) (X : Stock) : Subst.Moves s (fun _ st => st) X ∅ where
  good := by simp [Subst.Good, NameMap.values, EmptyCollection.emptyCollection, NameMap.empty]
  incoming n hn := by
    rcases hn with ⟨r, hr, _⟩
    simp [NameMap.values, EmptyCollection.emptyCollection, NameMap.empty] at hr
  value I ρ _ N y T _ := after_of_none (find?_empty _) ρ
  formula I ρ hρ N y hy := by
    rw [Assignment.view, ← hρ.formula N y hy]
    exact after_of_none (find?_empty _) ρ

variable (hs : s.PlainNames) (hsep : s.Separated)
include hs hsep

theorem Subst.Moves.insert (hσ : σ.Moves s g W) (hWX : W ≤ X) {x : String} {T : Ty}
    (hx : s.varType? x = some T) {v : Meaning} {p : VarTerms} (hp : p.Gives s T v X) :
    Subst.Moves s (fun I st => Function.update (g I st) x (v I st)) X
      (σ.insertAll (p.entries x)) := by
  have hσ := hσ.mono hWX
  have hgood := Subst.good_insert hσ.good hp.isOver.has (valueName x)
  have hinc := Subst.incoming_insert hσ.incoming hp.isOver (valueName x)
  -- Formulas are left alone by the value, and values by the formula.
  have hvalue : ∀ I ρ, s.Standard I ρ → ∀ N y U, s.Version N y U →
      Subst.after I (σ.insert (valueName x) p.term) ρ (valueName y) =
        Function.update (g I (Assignment.view ρ)) x (v I (Assignment.view ρ)) y := by
    intro I ρ hρ N y U hy
    rw [Subst.after_insert]
    by_cases hyx : y = x
    · rw [hyx, if_pos rfl, Function.update_self, hp.eval I ρ hρ]
    · rw [if_neg fun h => hyx (valueName_inj h), Function.update_of_ne hyx,
        hσ.value I ρ hρ N y U hy]
  have hformula : ∀ I ρ, s.Standard I ρ → ∀ N y, s.Version N y .bool → y ≠ x →
      Subst.after I (σ.insert (valueName x) p.term) ρ y =
        Function.update (g I (Assignment.view ρ)) x (v I (Assignment.view ρ)) y := by
    intro I ρ hρ N y hy hyx
    rw [Subst.after_insert, if_neg (hy.ne_valueName hs hsep (Scope.version_of_varType? hx 0)),
      Function.update_of_ne hyx, hσ.formula I ρ hρ N y hy]
  by_cases hT : T = .bool
  · rcases hp.formula hT with ⟨f, hf, hover, heval⟩
    rw [VarTerms.entries, hf]
    refine ⟨Subst.good_insert hgood hover.has x, Subst.incoming_insert hinc hover x,
      fun I ρ hρ N y U hy => ?_, fun I ρ hρ N y hy => ?_⟩
    · refine (Subst.after_insert I _ ρ x _ f).trans ?_
      rw [if_neg fun h => plainName_ne_valueName (hs x T hx) h.symm, hvalue I ρ hρ N y U hy]
    · refine (Subst.after_insert I _ ρ x _ f).trans ?_
      by_cases hyx : y = x
      · rw [hyx, if_pos rfl, Function.update_self, heval I ρ hρ]
      · rw [if_neg hyx, hformula I ρ hρ N y hy hyx]
  · rw [VarTerms.entries, hp.value hT]
    refine ⟨hgood, hinc, hvalue, fun I ρ hρ N y hy => hformula I ρ hρ N y hy fun hyx => hT ?_⟩
    rw [hyx] at hy
    exact (Scope.version_of_varType? hx 0).type_unique hs hy

end Insert

section Kinds

variable {W X : Stock} {c : Condition} (hth : c.theory.Advances)
  (hs : c.scope.PlainNames) (hsep : c.scope.Separated) {s : Scope}

theorem Term.Variable.isOver {n : String} {sort : TermSort} {r : Term}
    (h : Term.Variable n sort X r) (hn : s.Known X.names n) : Over s X r := by
  refine ⟨h.has, fun m hm => ?_⟩
  rw [(free_var h.name?).mp hm]
  exact hn

theorem Stock.Stands.gives {y : String} {T : Ty} {p : VarTerms} (h : X.Stands y T p)
    (hy : s.Version X.names y T) : p.Gives s T (fun _ st => st y) X where
  isOver := h.term.isOver (.inl ⟨y, T, hy, rfl⟩)
  eval I ρ _ := eval_var h.term.name? ρ
  formula hT := by
    subst hT
    rcases h.formula rfl with ⟨f, hf, hvar⟩
    refine ⟨f, hf, hvar.isOver (.inr hy), fun I ρ hρ => ?_⟩
    rw [eval_var hvar.name?, Assignment.view, hρ.formula _ y hy]
  value hT := h.value (Bool.eq_false_iff.mpr fun h => hT (Ty.isBool_iff.mp h))

include hth in
theorem encodes_freshVariable (x : String) (T : Ty) : Encodes W (c.freshVariable x T) fun X p =>
      ∃ k, W.names ≤ k ∧ k < X.names ∧ X.Stands (versionName x k) T p := by
  unfold Encoding.freshVariable
  refine yields_bind (yields_lift (Fresh.builds_name W x)) fun X y _ hy => ?_
  rcases hy with ⟨k, hk, hk', rfl⟩
  refine (encodes_varTerms c.toEncoding hth _ T).mono fun Y p hXY hp => ⟨k, hk, ?_, hp⟩
  exact Nat.lt_of_lt_of_le hk' hXY.2

/-- The listed variables take the values of their versions with the given
    numbers. -/
def renew (vars : List String) (num : String → Nat) : Transformation :=
  fun _ st y => if y ∈ vars then st (versionName y (num y)) else st y

theorem renew_concat (vars : List String) (num : String → Nat) (x : String) (k : Nat) (I : Interp)
    (st : Assignment I.Value) :
    Function.update (renew vars num I st) x (st (versionName x k)) =
      renew (vars ++ [x]) (Function.update num x k) I st := by
  funext y
  by_cases hyx : y = x
  · simp [renew, hyx]
  · simp [renew, hyx]

include hth hs hsep in
/-- The numbers are new, so nothing that was made before mentions the versions. -/
theorem encodes_versions (vars : List String) :
    Encodes W (c.versions vars) fun X σ => ∃ num : String → Nat,
      (∀ x ∈ vars, W.names ≤ num x) ∧ σ.Moves c.scope (renew vars num) X := by
  unfold Condition.versions
  induction vars using List.reverseRecOn with
  | nil => exact yields_pure ⟨fun _ => 0, by simp, Subst.moves_empty _ _⟩
  | append_singleton vars x ih =>
    rw [foldlM_append]
    refine yields_bind ih fun X₁ σ h₁ hσ => ?_
    rcases hσ with ⟨num, hnum, hσ⟩
    rw [foldlM_cons]
    refine yields_bind ?_ fun X σ' _ hσ' => yields_pure (Q := fun X σ =>
      ∃ num : String → Nat, (∀ y ∈ vars ++ [x], W.names ≤ num y) ∧
        Subst.Moves c.scope (renew (vars ++ [x]) num) X σ) hσ'
    refine yields_bind (yields_variableType c.toEncoding x trivial) fun X₂ T h₂ hT => ?_
    refine yields_bind (encodes_freshVariable hth x T) fun X₃ p h₃ hp => yields_pure ?_
    rcases hp with ⟨k, hk, hk', hp⟩
    -- A variable named twice is renewed by its last version.
    refine ⟨Function.update num x k, fun y hy => ?_, ?_⟩
    · by_cases hyx : y = x
      · rw [hyx, Function.update_self]
        exact (h₁.2.trans h₂.2).trans hk
      · rw [Function.update_of_ne hyx]
        exact hnum y (by simpa [hyx] using hy)
    · have hins := hσ.insert hs hsep (h₂.trans h₃) hT (hp.gives (Scope.version_versionName hT hk'))
      simp only [renew_concat] at hins
      exact hins

theorem Means.eval_view {e : Expr} {t : Term} (h : Means s [] (e.meaning s []) X t) {I : Interp}
    {ρ : Assignment I.Value} (hρ : s.Standard I ρ) :
    t.eval I ρ = I.value s e [] (Assignment.view ρ) :=
  h.eval I ρ _ hρ.fits (hρ.reads (s.shows_view I ρ))

include hth hs in
theorem encodes_assignment {x : String} {e : Expr} {T : Ty} (hx : c.scope.varType? x = some T)
    (he : HasType c.scope [] e T) (hplain : e.Plain) :
    Encodes W (c.assignment x e) fun X es => ∃ p : VarTerms, es = p.entries x ∧
      p.Gives c.scope T (e.meaning c.scope []) X := by
  unfold Condition.assignment
  refine yields_bind (yields_variableType c.toEncoding x trivial) fun X₁ U h₁ hU => ?_
  rw [hx, Option.some.injEq] at hU
  subst hU
  refine yields_bind (encodes_encode hth hs e he hplain (by simp)) fun X₂ t h₂ ht => ?_
  split
  · next hT =>
    -- A boolean is encoded once more, as a formula.
    refine yields_bind (encodes_encode hth hs e he hplain fun _ => Ty.isBool_iff.mp hT)
      fun X₃ f h₃ hf => yields_pure ⟨{ term := t, formula := some f }, rfl, ?_⟩
    exact ⟨(ht.mono h₃).isOver, fun I ρ hρ => ht.eval_view hρ,
      fun _ => ⟨f, rfl, hf.isOver, fun I ρ hρ => hf.eval_view hρ⟩,
      fun h => absurd (Ty.isBool_iff.mp hT) h⟩
  · next hT =>
    refine yields_pure ⟨{ term := t }, rfl, ht.isOver, fun I ρ hρ => ht.eval_view hρ,
      fun h => absurd (Ty.isBool_iff.mpr h) hT, fun _ => rfl⟩

include hth hs hsep in
/-- All expressions are evaluated before the first of them is assigned. -/
theorem encodes_assignments (pairs : List (String × Expr))
    (hpairs : ∀ p ∈ pairs, ∃ T, c.scope.varType? p.1 = some T ∧ HasType c.scope [] p.2 T ∧
      p.2.Plain) :
    Encodes W
      (pairs.foldlM (fun σ (v, e) => do return σ.insertAll (← c.assignment v e)) (∅ : Subst))
      (Subst.Moves c.scope fun I => I.assigned c.scope pairs) := by
  induction pairs using List.reverseRecOn with
  | nil => exact yields_pure (Subst.moves_empty _ _)
  | append_singleton pairs p ih =>
    rw [foldlM_append]
    refine yields_bind (ih fun q hq => hpairs q (by simp [hq])) fun X₁ σ h₁ hσ => ?_
    rcases hpairs p (by simp) with ⟨T, hT, htype, hplain⟩
    rw [foldlM_cons]
    refine yields_bind (yields_bind (encodes_assignment hth hs hT htype hplain)
      fun X₂ es h₂ hes => yields_pure (Q := Subst.Moves c.scope
        fun I => I.assigned c.scope (pairs ++ [p])) ?_) fun X σ' _ hσ' => yields_pure hσ'
    rcases hes with ⟨q, rfl, hq⟩
    have hins := hσ.insert hs hsep h₂ hT hq
    unfold Interp.assigned
    simp only [foldl_append, foldl_cons, foldl_nil]
    exact hins

end Kinds

section FarSide

variable {s : Scope} {I : Interp} {X : Stock} {σ : Subst} {ρ : Assignment I.Value}

theorem Subst.Moves.standard {g : Transformation} (hσ : σ.Moves s g X) (hρ : s.Standard I ρ)
    (hg : ∀ N y T, s.Version N y T → I.Dom T.sort (g I (Assignment.view ρ) y)) :
    s.Standard I (σ.after I ρ) where
  value N y T hy := by
    rw [hσ.value I ρ hρ N y T hy]
    exact hg N y T hy
  formula N y hy := by rw [hσ.formula I ρ hρ N y hy, hσ.value I ρ hρ N y .bool hy]

variable (hs : s.PlainNames)
include hs

section Assigned

variable {pairs : List (String × Expr)} (hpairs : (Action.assign pairs).WellTyped s)
  (hσ : σ.Moves s (fun I => I.assigned s pairs) X)
include hpairs hσ

variable {ρ : Assignment I.Value}

theorem Subst.Moves.standard_assigned (hρ : s.Standard I ρ) : s.Standard I (σ.after I ρ) := by
  refine hσ.standard hρ fun N y T hy => ?_
  by_cases hmem : y ∈ pairs.map (·.1)
  · rcases mem_map.mp hmem with ⟨p, hp, rfl⟩
    rcases hpairs.2 p hp with ⟨U, hU, htype, _⟩
    rw [Interp.assigned_of_mem hpairs.1 hp, hy.type_unique hs (Scope.version_of_varType? hU 0)]
    exact htype.dom_value hρ.fits
  · rw [Interp.assigned_of_not_mem hmem]
    exact hρ.value N y T hy

omit hs in
theorem Subst.Moves.shows_assigned (hρ : s.Standard I ρ) {st : Assignment I.Value}
    (hst : s.Shows I ρ st) : s.Shows I (σ.after I ρ) (I.assigned s pairs st) := by
  intro x T hx
  rw [hσ.value I ρ hρ 0 x T (Scope.version_of_varType? hx 0)]
  by_cases hmem : x ∈ pairs.map (·.1)
  · rcases mem_map.mp hmem with ⟨p, hp, rfl⟩
    rcases hpairs.2 p hp with ⟨U, _, htype, _⟩
    rw [Interp.assigned_of_mem hpairs.1 hp, Interp.assigned_of_mem hpairs.1 hp]
    exact htype.value_congr fun y V hy => hst y V hy
  · rw [Interp.assigned_of_not_mem hmem, Interp.assigned_of_not_mem hmem]
    exact hst x T hx

/-- A standard assignment after assigning comes from one before it. -/
theorem Subst.Moves.exists_assigned (hsep : s.Separated) {a b : State I s}
    (hab : b.get = I.assigned s pairs a.get) {τ : Assignment I.Value} (hτ : s.Standard I τ)
    (hshow : s.Shows I τ b.get) :
    ∃ ρ, s.Standard I ρ ∧ s.Shows I ρ a.get ∧ ∀ N n, s.Known N n → σ.after I ρ n = τ n := by
  -- Only the declared variables have to change.
  rcases Scope.exists_shows_like hs hsep a hτ with ⟨ρ, hρ, ha, hval⟩
  have hvalue : ∀ N y T, s.Version N y T → σ.after I ρ (valueName y) = τ (valueName y) := by
    intro N y T hy
    cases hdecl : s.varType? y with
    | some U => rw [hσ.shows_assigned hpairs hρ ha y U hdecl, hshow y U hdecl, hab]
    | none =>
      have hmem : y ∉ pairs.map (·.1) := by
        intro hmem
        rcases mem_map.mp hmem with ⟨p, hp, rfl⟩
        rcases hpairs.2 p hp with ⟨U, hU, _⟩
        simp [hdecl] at hU
      rw [hσ.value I ρ hρ N y T hy, Interp.assigned_of_not_mem hmem, Assignment.view,
        hval N y T hy hdecl]
  refine ⟨ρ, hρ, ha, fun N n hn => ?_⟩
  rcases hn with ⟨y, T, hy, rfl⟩ | hn
  · exact hvalue N y T hy
  · rw [(hσ.standard_assigned hs hpairs hρ).formula N n hn, hτ.formula N n hn, hvalue N n _ hn]

end Assigned

variable {vars : List String} (hvars : ∀ x ∈ vars, ∃ T, s.varType? x = some T)
  {num : String → Nat} (hσ : σ.Moves s (renew vars num) X)
include hvars hσ

theorem Subst.Moves.standard_renew (hρ : s.Standard I ρ) : s.Standard I (σ.after I ρ) := by
  refine hσ.standard hρ fun N y T hy => ?_
  by_cases hmem : y ∈ vars
  · rcases hvars y hmem with ⟨U, hU⟩
    rw [renew, if_pos hmem, hy.type_unique hs (Scope.version_of_varType? hU 0)]
    exact hρ.value _ _ U (Scope.version_versionName hU (Nat.lt_succ_self (num y)))
  · rw [renew, if_neg hmem]
    exact hρ.value N y T hy

theorem Subst.Moves.shows_renew (hρ : s.Standard I ρ) {a : State I s} (ha : s.Shows I ρ a.get) :
    ∃ b : State I s, s.Shows I (σ.after I ρ) b.get ∧ ∀ x, x ∉ vars → b.get x = a.get x := by
  have hτ := hσ.standard_renew hs hvars hρ
  refine ⟨⟨fun x => if x ∈ vars then σ.after I ρ (valueName x) else a.get x, fun x T hx => ?_⟩,
    fun x T hx => ?_, fun x hx => if_neg hx⟩
  · dsimp only
    split
    · exact hτ.value 0 x T (Scope.version_of_varType? hx 0)
    · exact a.fits x T hx
  · dsimp only
    split
    · rfl
    · next hmem =>
      rw [hσ.value I ρ hρ 0 x T (Scope.version_of_varType? hx 0), renew, if_neg hmem, ← ha x T hx]
      rfl

open Classical in
/-- Whatever standard assignment shows a state, a renewal leads there from an
    assignment that shows any other state, up to the renewed variables. -/
theorem Subst.Moves.exists_renewed (hsep : s.Separated) {N : Nat} (hnum : ∀ x ∈ vars, N ≤ num x)
    {a b : State I s} (hab : ∀ x, x ∉ vars → a.get x = b.get x) {τ : Assignment I.Value}
    (hτ : s.Standard I τ) (hshow : s.Shows I τ b.get) :
    ∃ ρ, s.Standard I ρ ∧ s.Shows I ρ a.get ∧ ∀ n, s.Known N n → σ.after I ρ n = τ n := by
  -- The new versions get what the far side has for their variables, and then
  -- the variables get what the near state has.
  let st : Assignment I.Value := fun y =>
    if h : ∃ x ∈ vars, y = versionName x (num x) then τ (valueName h.choose) else τ (valueName y)
  have hnew : ∀ x ∈ vars, st (versionName x (num x)) = τ (valueName x) := by
    intro x hx
    have h : ∃ z ∈ vars, versionName x (num x) = versionName z (num z) := ⟨x, hx, rfl⟩
    simp only [st, dif_pos h]
    rw [← (versionName_inj h.choose_spec.2).1]
  have hold : ∀ y, (¬ ∃ x ∈ vars, y = versionName x (num x)) → st y = τ (valueName y) :=
    fun y hy => dif_neg hy
  have hdom : ∀ M y T, s.Version M y T → I.Dom T.sort (st y) := by
    intro M y T hy
    by_cases h : ∃ x ∈ vars, y = versionName x (num x)
    · rcases h with ⟨x, hx, rfl⟩
      rcases hvars x hx with ⟨U, hU⟩
      rw [hnew x hx, hy.type_unique hs (Scope.version_versionName hU (Nat.lt_succ_self (num x)))]
      exact hτ.value 0 x U (Scope.version_of_varType? hU 0)
    · rw [hold y h]
      exact hτ.value M y T hy
  rcases Scope.exists_standard hs hsep st hdom with ⟨τ', hτ', hval'⟩
  rcases Scope.exists_shows_like hs hsep a hτ' with ⟨ρ, hρ, hshow', hval⟩
  have hundeclared : ∀ x k, s.varType? (versionName x k) = none := by
    intro x k
    by_contra h
    rcases Option.ne_none_iff_exists'.mp h with ⟨T, hT⟩
    exact plainName_ne_versionName (hs _ T hT) rfl
  have hfar : ∀ y T, s.Version N y T →
      renew vars num I (Assignment.view ρ) y = τ (valueName y) := by
    intro y T hy
    by_cases hmem : y ∈ vars
    · rcases hvars y hmem with ⟨U, hU⟩
      have hversion := Scope.version_versionName hU (Nat.lt_succ_self (num y))
      rw [renew, if_pos hmem, Assignment.view, hval _ _ U hversion (hundeclared y _),
        hval' _ _ U hversion, hnew y hmem]
    · rw [renew, if_neg hmem, Assignment.view]
      cases hdecl : s.varType? y with
      | some U => rw [hshow' y U hdecl, hab y hmem, hshow y U hdecl]
      | none =>
        rw [hval N y T hy hdecl, hval' N y T hy]
        exact hold y fun ⟨x, hx, h⟩ => hy.ne_versionName hs (hnum x hx) h
  refine ⟨ρ, hρ, hshow', fun n hn => ?_⟩
  rcases hn with ⟨y, T, hy, rfl⟩ | hn
  · rw [hσ.value I ρ hρ N y T hy, hfar y T hy]
  · rw [hσ.formula I ρ hρ N n hn, hfar n .bool hn, hτ.formula N n hn]

end FarSide

/-- A term after a substitution has the value of the term elsewhere. -/
theorem builds_moved {s : Scope} (hs : s.PlainNames) {W : Stock} {g : Transformation} {σ : Subst}
    (hσ : σ.Moves s g W) {t : Term} (ht : Over s W t) :
    Builds W (t.subst σ) fun X r => Over s X r ∧
      ∀ (I : Interp) (ρ : Assignment I.Value), r.eval I ρ = t.eval I (σ.after I ρ) := by
  have hclear : σ.Clear t := fun n hn _ => (hσ.incoming n hn).not_captured hs
  refine (builds_substituted ht.has.1 fun r hr => (hσ.good r hr).1).mono
    fun X r hWX ⟨hmem, hr⟩ => ?_
  have htidy := hr.tidy ht.has.2 hclear fun q hq => (hσ.good q hq).2
  refine ⟨⟨⟨hmem, htidy⟩, fun n hn => ?_⟩, hr.eval_after ht.has.2 hclear⟩
  rcases (hr.free n).mp hn with ⟨m, hm, ⟨_, rfl⟩ | ⟨q, hq, hn⟩⟩
  · exact (ht.free n hm).mono hWX.2
  · exact (hσ.incoming n ⟨q, mem_values_of_find? hq, hn⟩).mono hWX.2

end Vouch
