import Vouch.Proofs.Condition.Exactness
import Vouch.Proofs.Term.Parallel

/-!
# What Computing a Condition Keeps Up

A condition is put together from encoded expressions, and some of its parts are
substituted in others. So what encoding keeps up is kept up by both ways of computing
conditions if substitution keeps it up.

## Main definitions

* `Condition.Upholds`: What has to be known of substitution, and of the terms of
  versions.

## Theorems

* `yields_weakest`: Backwards it is kept up.
* `yields_strongest`: And forwards.
* `yields_compute`: So it is, whatever the graph.
-/

namespace Vouch

open List Term

/-- The expressions of an action. -/
def Action.exprs : Action → List Expr
  | .assert e | .assume e => [e]
  | .assign pairs => pairs.map (·.2)
  | .call site => site.args
  | .havoc _ | .goto _ | .skip => []

/-- The terms of a table, relabelled. -/
def relabelTable (φ : Relabelling) (table : List (Nat × Term)) : List (Nat × Term) :=
  table.map fun e => (e.1, e.2.relabel φ)

theorem lookup_relabelTable {φ : Relabelling} (table : List (Nat × Term)) (v : Nat) :
    (relabelTable φ table).lookup v = (table.lookup v).map (relabel φ) := by
  unfold relabelTable
  induction table with
  | nil => rfl
  | cons e es ih =>
    rw [map_cons, lookup_cons, lookup_cons]
    by_cases hv : v = e.1
    · simp [hv]
    · have hkey : (v == e.1) = false := by simpa using hv
      rw [hkey]
      exact ih

/-- All that is known of the nodes, relabelled. -/
def Descriptions.relabel (φ : Relabelling) (d : Descriptions) : Descriptions where
  arrivals := relabelTable φ d.arrivals
  departures := relabelTable φ d.departures
  obligations := d.obligations.map (Term.relabel φ)

/-- What is substituted for a variable by name, relabelled. -/
def relabelEntries (φ : Relabelling) (entries : List (String × Term)) : List (String × Term) :=
  entries.map fun e => (φ.name e.1, e.2.relabel φ)

/-- What is known of encoded expressions is known of variables and all their versions,
    and substitution keeps it up if each name is replaced by what is known for a layer
    that the name is of. The names of declared variables are the same in both
    computations. -/
structure Condition.Upholds {World : Type} [Preorder World] (c : Condition) (G : Tandem World)
    (N F : String → Prop) (D : String → String → Ty → Prop) (M : Layer → String → Prop)
    (V : World → Term → Prop) (R : List (String × Ty) → Layer → World → Term → Prop) :
    Prop extends c.toEncoding.Upholds G N F D V R where
  scope : ∀ {x T}, c.scope.varType? x = some T → D x x T
  version : ∀ {w x T}, c.scope.varType? x = some T →
    G.Makes w (Fresh.name x) (Fresh.name x) fun _ y y' => D y y' T
  value : ∀ {x T}, c.scope.varType? x = some T →
    M .value (valueName x) ∧ G.labels.name (valueName x) = valueName x
  formula : ∀ {x}, c.scope.varType? x = some .bool → M .formula x ∧ G.labels.name x = x
  subst : ∀ {w t} {σ : Subst}, R [] .formula w t → σ.Respects M (R []) w →
    G.Copies w (t.subst σ) ((G.copy t).subst (σ.relabel G.labels)) (R [] .formula)
  /-- An equation whose right side is renewed. -/
  renew : ∀ {w t l r} {σ : Subst}, R [] .formula w t → t.op ≠ .all → t.children = [l, r] →
    σ.Respects M (R []) w →
    G.Brings w (do t.withChildren [l, ← r.subst σ] : Encode Term)
      (do (G.copy t).withChildren [G.copy l, ← (G.copy r).subst (σ.relabel G.labels)])
      (R [] .formula)

theorem Leaves.versions {World : Type} [Preorder World] {fits : World → Supply → Prop} {w : World}
    {s : Scope} {x : String} {T : Ty}
    (h : Leaves fits w (Fresh.name x) fun _ y => ∃ k, y = versionName x k)
    (hx : s.varType? x = some T) : (Coupling.single fits).Makes w (Fresh.name x) (Fresh.name x)
      fun _ y _ => ∃ N, s.Version N y T := by
  intro supply hfits
  rcases h supply hfits with ⟨v, hwv, hv, k, hk⟩
  refine ⟨v, hwv, hv, x, k + 1, ?_⟩
  rw [hk]
  exact Scope.version_versionName hx (Nat.lt_succ_self k)

section Condition

variable {World : Type} [Preorder World] {G : Tandem World} {N F : String → Prop}
  {D : String → String → Ty → Prop} {M : Layer → String → Prop} {V : World → Term → Prop}
  {R : List (String × Ty) → Layer → World → Term → Prop} {c : Condition} {w : World}
  {table : List (Nat × Term)} (hc : c.Upholds G N F D M V R)
include hc

variable {e : Expr} {action : Action}

theorem yields_formula (he : e.Spelled N F) :
    G.Brings w (c.formula e) (c.formula e) (R [] .formula) :=
  yields_encode hc.toUpholds e .formula he fun _ _ _ _ hT => hc.scope hT

theorem yields_term (he : e.Spelled N F) : G.Brings w (c.term e) (c.term e) (R [] .value) :=
  yields_encode hc.toUpholds e .value he fun _ _ _ _ hT => hc.scope hT

theorem yields_lookup (h : ∀ e ∈ table, R [] .formula w e.2) (v : Nat) :
    G.Brings w (Condition.lookup table v) (Condition.lookup (relabelTable G.labels table) v)
      (R [] .formula) := by
  unfold Condition.lookup
  rw [lookup_relabelTable]
  cases ht : table.lookup v with
  | some t => exact G.yields_pure ⟨rfl, h _ (mem_of_lookup ht)⟩
  | none => exact G.yields_lift ((hc.theory []).formula true)

theorem yields_formulas {α : Type} {f f' : α → Encode Term} {as : List α}
    (h : ∀ a ∈ as, ∀ v, w ≤ v → G.Brings v (f a) (f' a) (R [] .formula)) :
    G.BringsAll w (as.mapM f) (as.mapM f') fun v ts => ∀ t ∈ ts, R [] .formula v t := by
  refine G.yields_mono (G.brings_mapM (R := fun _ => R [] .formula)
    (fun _ _ _ _ => (hc.theory []).mono) h) ?_
  rintro v ts _ _ ⟨rfl, hts⟩
  refine ⟨rfl, fun t ht => ?_⟩
  rcases exists_of_forall₂_left hts ht with ⟨_, _, h⟩
  exact h

theorem yields_lookups (h : ∀ e ∈ table, R [] .formula w e.2) (vs : List Nat) :
    G.BringsAll w (vs.mapM (Condition.lookup table))
      (vs.mapM (Condition.lookup (relabelTable G.labels table))) fun v ts =>
        ∀ t ∈ ts, R [] .formula v t := by
  refine yields_formulas hc fun v _ _ hwu => yields_lookup hc (fun e he => ?_) v
  exact (hc.theory []).mono hwu (h e he)

/-! ### Substitutions -/

variable {x : String} {T : Ty}

theorem respects_insertAll {σ : Subst} {p : VarTerms} (hσ : σ.Respects M (R []) w)
    (hT : c.scope.varType? x = some T) (hp : p.Known (R []) T w) :
    (σ.relabel G.labels).insertAll ((p.relabel G.labels).entries x) =
        Subst.relabel G.labels (σ.insertAll (p.entries x)) ∧
      Subst.Respects M (R []) w (σ.insertAll (p.entries x)) := by
  have hentries : (p.relabel G.labels).entries x = relabelEntries G.labels (p.entries x) := by
    rcases p with ⟨t, _ | f⟩
    · simp [VarTerms.entries, relabelEntries, VarTerms.relabel, (hc.value hT).2]
    · have hname := (hc.formula ((hp.2 f rfl).1 ▸ hT)).2
      simp [VarTerms.entries, relabelEntries, VarTerms.relabel, (hc.value hT).2, hname]
  rw [hentries]
  refine ⟨Subst.insertAll_relabel σ _, hσ.insertAll fun e he => ?_⟩
  rcases mem_cons.mp he with rfl | he
  · exact ⟨.value, (hc.value hT).1, hp.1⟩
  · obtain ⟨f, hf, rfl⟩ : ∃ f, p.formula = some f ∧ (x, f) = e := by simpa using he
    rcases hp.2 f hf with ⟨rfl, hf⟩
    exact ⟨.formula, (hc.formula hT).1, hf⟩

theorem yields_versions (vars : List String) :
    G.Yields w (c.versions vars) (c.versions vars) fun v σ σ' =>
      σ' = σ.relabel G.labels ∧ σ.Respects M (R []) v := by
  unfold Condition.versions
  -- A version is put for its variable on either side, a formula for the formula and a
  -- value for the value, and so the substitution is as it should be while it grows.
  refine G.yields_foldlM ⟨rfl, NameMap.each_empty⟩ ?_
  rintro v σ _ _ ⟨rfl, hσ⟩ x _
  refine G.yields_bind (G.yields_variableType _ (hc.error (.unknownVariable x))) ?_
  rintro v₁ T _ h₁ ⟨rfl, hT⟩
  refine G.yields_bind (G.yields_bind (G.yields_lift (hc.version hT)) fun _ y y' _ hy =>
    hc.declared [] hy) ?_
  rintro v₂ p _ h₂ ⟨rfl, hp⟩
  exact G.yields_pure
    (respects_insertAll hc (hσ.mono ((hc.theory []).mono (h₁.trans h₂))) hT hp)

theorem yields_assignment (x : String) (he : e.Spelled N F) :
    G.Yields w (c.assignment x e) (c.assignment x e) fun v entries entries' =>
      ∃ (T : Ty) (p : VarTerms), c.scope.varType? x = some T ∧ entries = p.entries x ∧
        entries' = (p.relabel G.labels).entries x ∧ p.Known (R []) T v := by
  unfold Condition.assignment
  refine G.yields_bind (G.yields_variableType _ (hc.error (.unknownVariable x))) ?_
  rintro v₁ T _ _ ⟨rfl, hT⟩
  refine G.next (yields_term hc he) fun v₂ t _ ht => ?_
  split
  · next hbool =>
    refine G.next (yields_formula hc he) fun v₃ f h₃ hf => G.yields_pure ?_
    refine ⟨T, ⟨t, some f⟩, hT, rfl, rfl, (hc.theory []).mono h₃ ht, ?_⟩
    rintro _ ⟨⟩
    exact ⟨Ty.isBool_iff.mp hbool, hf⟩
  · exact G.yields_pure ⟨T, ⟨t, none⟩, hT, rfl, rfl, ht, fun _ h => by cases h⟩

/-! ### Backwards -/

theorem yields_weakestBefore {post : Term} (hpost : R [] .formula w post)
    (haction : ∀ e ∈ action.exprs, e.Spelled N F)
    (hcall : ∀ site, action = .call site → ∀ err, G.error err) :
    G.Brings w (c.weakestBefore post action) (c.weakestBefore (G.copy post) action)
      (R [] .formula) := by
  have hth := hc.theory []
  cases action with
  | assert e =>
    refine G.next (yields_formula hc (haction e (by simp [Action.exprs]))) fun v t hwv ht => ?_
    split
    · refine G.next (G.yields_lift (hth.implies ht (hth.mono hwv hpost))) fun u r hvu hr => ?_
      exact G.yields_lift (hth.and [t, r] (by simp [hth.mono hvu ht, hr]))
    · exact G.yields_lift (hth.and [t, post] (by simp [ht, hth.mono hwv hpost]))
  | assume e =>
    refine G.next (yields_formula hc (haction e (by simp [Action.exprs]))) fun v t hwv ht => ?_
    exact G.yields_lift (hth.implies ht (hth.mono hwv hpost))
  | assign pairs =>
    refine G.yields_bind (Q := fun v σ σ' => σ' = σ.relabel G.labels ∧ σ.Respects M (R []) v)
      (G.yields_foldlM ⟨rfl, NameMap.each_empty⟩ ?_) ?_
    · rintro v σ _ _ ⟨rfl, hσ⟩ p hp
      refine G.yields_bind (yields_assignment hc p.1 (haction p.2 (mem_map_of_mem hp))) ?_
      rintro u _ _ hvu ⟨T, q, hT, rfl, rfl, hq⟩
      exact G.yields_pure (respects_insertAll hc (hσ.mono (hth.mono hvu)) hT hq)
    · rintro v σ _ hwv ⟨rfl, hσ⟩
      exact G.yields_lift (hc.subst (hth.mono hwv hpost) hσ)
  | havoc vars =>
    refine G.yields_bind (yields_versions hc vars) ?_
    rintro v σ _ hwv ⟨rfl, hσ⟩
    exact G.yields_lift (hc.subst (hth.mono hwv hpost) hσ)
  | goto _ | skip => exact G.yields_pure ⟨rfl, hpost⟩
  | call site => exact G.yields_throw (hcall site rfl _)

variable {body : Body} (hbody : ∀ command ∈ body, ∀ e ∈ command.action.exprs, e.Spelled N F)
  (hcalls : ∀ command ∈ body, ∀ site, command.action = .call site → ∀ err, G.error err)
include hbody hcalls

theorem yields_weakest (g : FlowGraph) (order : List Nat) :
    G.Brings w (c.weakest body g order) (c.weakest body g order) (R [] .formula) := by
  have hth := hc.theory []
  -- Only what the table holds is carried from node to node.
  have htable : G.Yields w (order.reverse.foldlM (c.weakestStep body g) [])
      (order.reverse.foldlM (c.weakestStep body g) []) fun v table table' =>
        table' = relabelTable G.labels table ∧ ∀ e ∈ table, R [] .formula v e.2 := by
    refine G.yields_foldlM ⟨rfl, by simp⟩ ?_
    rintro v table _ _ ⟨rfl, htable⟩ n _
    unfold Condition.weakestStep
    refine G.nextAll (yields_lookups hc htable _) fun v₁ ts h₁ hts => ?_
    refine G.next (G.yields_lift (hth.and ts hts)) fun v₂ post h₂ hpost => ?_
    have htable₂ : ∀ e ∈ table, R [] .formula v₂ e.2 :=
      fun e he => hth.mono (h₁.trans h₂) (htable e he)
    split
    · next command hcommand =>
      have hmem := mem_of_getElem? hcommand
      refine G.next (yields_weakestBefore hc hpost (hbody _ hmem) (hcalls _ hmem))
        fun v₃ pre h₃ hpre => G.yields_pure ⟨rfl, ?_⟩
      exact forall_mem_cons.mpr ⟨hpre, fun e he => hth.mono h₃ (htable₂ e he)⟩
    · exact G.yields_pure ⟨rfl, forall_mem_cons.mpr ⟨hpost, htable₂⟩⟩
  refine G.yields_bind htable ?_
  rintro v table _ _ ⟨rfl, htable⟩
  split
  · exact yields_lookup hc htable _
  · exact G.yields_lift (hth.formula true)

/-! ### Forwards -/

omit hbody hcalls in
theorem yields_newValue {old : Subst} (hold : old.Respects M (R []) w) (x : String)
    (he : e.Spelled N F) :
    G.Brings w (c.newValue old x e) (c.newValue (old.relabel G.labels) x e) (R [] .formula) := by
  have hth := hc.theory []
  have hequation : ∀ {v : World} {op : Op} {k : Layer} {a b : Term},
      op.Maps .formula k .formula → R [] k v a → R [] k v b →
      G.Copies v (c.theory.make op .formula [a, b])
        (c.theory.make op .formula [G.copy a, G.copy b]) fun u t =>
          R [] .formula u t ∧ t.head = { op, sort := .formula } ∧ t.children = [a, b] :=
    fun hop ha hb => (hth.two hop ha hb).and_gives (gives_theory_make _ _ _ _)
  unfold Condition.newValue
  refine G.yields_bind (G.yields_variableType _ (hc.error (.unknownVariable x))) ?_
  rintro v₁ T _ h₁ ⟨rfl, hT⟩
  refine G.yields_bind (hc.declared [] (hc.scope hT)) ?_
  rintro v₂ ⟨t, f⟩ _ h₂ ⟨rfl, ht, hf⟩
  have hold₂ := hold.mono (hth.mono (h₁.trans h₂))
  cases f with
  | some f =>
    refine G.next (yields_formula hc he) fun v₃ r h₃ hr => ?_
    refine G.next (G.yields_lift (hequation ⟨rfl, rfl, rfl, by simp⟩ (hth.mono h₃ (hf f rfl).2) hr))
      fun v₄ equation h₄ heq => ?_
    have hop : equation.op ≠ .all := by simp [Term.op, heq.2.1]
    dsimp only
    rw [children_relabel, heq.2.2]
    exact hc.renew heq.1 hop heq.2.2 (hold₂.mono (hth.mono (h₃.trans h₄)))
  | none =>
    refine G.next (yields_term hc he) fun v₃ r h₃ hr => ?_
    refine G.next (G.yields_lift (hequation ⟨rfl, rfl, rfl, by simp⟩ (hth.mono h₃ ht) hr))
      fun v₄ equation h₄ heq => ?_
    have hop : equation.op ≠ .all := by simp [Term.op, heq.2.1]
    dsimp only
    rw [children_relabel, heq.2.2]
    exact hc.renew heq.1 hop heq.2.2 (hold₂.mono (hth.mono (h₃.trans h₄)))

omit hbody hcalls in
theorem yields_strongestAfter {pre : Term} (hpre : R [] .formula w pre)
    (haction : ∀ e ∈ action.exprs, e.Spelled N F)
    (hcall : ∀ site, action = .call site → ∀ err, G.error err) :
    G.Brings w (c.strongestAfter pre action) (c.strongestAfter (G.copy pre) action)
      (R [] .formula) := by
  have hth := hc.theory []
  have hfilter : ∀ e : Expr, e.Spelled N F →
      G.Brings w (do c.theory.and [pre, ← c.formula e] : Encode Term)
        (do c.theory.and [G.copy pre, ← c.formula e] : Encode Term) (R [] .formula) := by
    intro e he
    refine G.next (yields_formula hc he) fun v t hwv ht => G.yields_lift ?_
    exact hth.and [pre, t] (by simp [hth.mono hwv hpre, ht])
  cases action with
  | assert e =>
    rw [Condition.strongestAfter, Condition.strongestAfter]
    split
    · exact hfilter e (haction e (by simp [Action.exprs]))
    · exact G.yields_pure ⟨rfl, hpre⟩
  | assume e => exact hfilter e (haction e (by simp [Action.exprs]))
  | assign pairs =>
    refine G.yields_bind (yields_versions hc _) ?_
    rintro v₁ old _ h₁ ⟨rfl, hold⟩
    refine G.next (G.yields_lift (hc.subst (hth.mono h₁ hpre) hold)) fun v₂ before h₂ hbefore => ?_
    refine G.nextAll (yields_formulas hc fun p hp v₃ h₃ =>
      yields_newValue hc (hold.mono (hth.mono (h₂.trans h₃))) p.1
        (haction p.2 (mem_map_of_mem hp))) fun v₃ ts h₃ hts => G.yields_lift ?_
    exact hth.and (before :: ts) (forall_mem_cons.mpr ⟨hth.mono h₃ hbefore, hts⟩)
  | havoc vars =>
    refine G.yields_bind (yields_versions hc vars) ?_
    rintro v σ _ hwv ⟨rfl, hσ⟩
    exact G.yields_lift (hc.subst (hth.mono hwv hpre) hσ)
  | goto _ | skip => exact G.yields_pure ⟨rfl, hpre⟩
  | call site => exact G.yields_throw (hcall site rfl _)

omit hbody hcalls in
theorem yields_owed {pre : Term} (hpre : R [] .formula w pre)
    (haction : ∀ e ∈ action.exprs, e.Spelled N F) :
    G.BringsAll w (c.owed pre action) (c.owed (G.copy pre) action) fun v ts =>
      ∀ t ∈ ts, R [] .formula v t := by
  have hth := hc.theory []
  cases action with
  | assert e =>
    refine G.next (yields_formula hc (haction e (by simp [Action.exprs]))) fun v t hwv ht => ?_
    refine G.next (G.yields_lift (hth.implies (hth.mono hwv hpre) ht)) fun u r _ hr => ?_
    exact G.yields_pure ⟨rfl, by simpa using hr⟩
  | _ => exact G.yields_pure ⟨rfl, by simp⟩

omit hbody hcalls in
theorem yields_arrival (g : FlowGraph) {departures : List (Nat × Term)}
    (hdepart : ∀ e ∈ departures, R [] .formula w e.2) (v : Nat) :
    G.Brings w (c.arrival g departures v) (c.arrival g (relabelTable G.labels departures) v)
      (R [] .formula) := by
  unfold Condition.arrival
  split
  · exact G.yields_lift ((hc.theory []).formula true)
  · refine G.nextAll (yields_lookups hc hdepart _) fun v ts _ hts => ?_
    exact G.yields_lift ((hc.theory []).or ts hts)

theorem yields_strongest (g : FlowGraph) (order : List Nat) :
    G.Brings w (c.strongest body g order) (c.strongest body g order) (R [] .formula) := by
  have hth := hc.theory []
  have hdescribed : G.Yields w (c.descriptions body g order) (c.descriptions body g order)
      fun v d d' => d' = d.relabel G.labels ∧ (∀ e ∈ d.departures, R [] .formula v e.2) ∧
        ∀ t ∈ d.obligations, R [] .formula v t := by
    refine G.yields_foldlM ⟨rfl, by simp⟩ ?_
    rintro v d _ _ ⟨rfl, hd⟩ n _
    unfold Condition.describe
    refine G.next (yields_arrival hc g hd.1 n) fun v₁ pre h₁ hpre => ?_
    split
    · next command hcommand =>
      have hmem := mem_of_getElem? hcommand
      refine G.nextAll (yields_owed hc hpre (hbody _ hmem)) fun v₂ new h₂ hnew => ?_
      refine G.next (yields_strongestAfter hc (hth.mono h₂ hpre) (hbody _ hmem)
        (hcalls _ hmem)) fun v₃ post h₃ hpost => ?_
      have hle := h₁.trans (h₂.trans h₃)
      refine G.yields_pure ⟨by simp [Descriptions.relabel, relabelTable],
        forall_mem_cons.mpr ⟨hpost, fun e he => hth.mono hle (hd.1 e he)⟩, fun t ht => ?_⟩
      rcases mem_append.mp ht with ht | ht
      · exact hth.mono hle (hd.2 t ht)
      · exact hth.mono h₃ (hnew t ht)
    · exact G.yields_pure ⟨rfl, forall_mem_cons.mpr
        ⟨hpre, fun e he => hth.mono h₁ (hd.1 e he)⟩, fun t ht => hth.mono h₁ (hd.2 t ht)⟩
  refine G.yields_bind hdescribed ?_
  rintro v d _ _ ⟨rfl, hd⟩
  exact G.yields_lift (hth.and _ hd.2)

omit hcalls in
/-- Whatever the graph is. Where nothing was computed, there is an error. -/
theorem yields_compute (herror : ∀ err, G.error err) (name : String) (g : FlowGraph) :
    G.Brings w (c.compute name body g) (c.compute name body g) (R [] .formula) := by
  rw [Condition.compute_eq]
  split
  · split
    · exact G.yields_throw (herror _)
    · split
      · exact yields_weakest hc hbody (fun _ _ _ _ => herror) g _
      · exact yields_strongest hc hbody (fun _ _ _ _ => herror) g _
  · exact G.yields_throw (herror _)

end Condition

end Vouch
