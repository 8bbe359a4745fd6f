import Vouch.Proofs.Condition.Moves
import Vouch.Proofs.Flow.Order

/-!
# Weakest Conditions Are Exact

Backwards, a condition says of a state that nothing fails from there on, and it has to
say so for all values of the versions: a version stands for a value that a `havoc`
further on will choose.

## Main definitions

* `Machine.Sure`: A term holds of a state for all values of the versions.
* `Precondition`: One step back is exact.
* `Guards`: No execution fails from a node.

## Theorems

* `encodes_weakest_sure`: The condition is sure where nothing fails from the entry.
-/

namespace Vouch

open List Term

/-- The term holds in all standard assignments. -/
def Term.Valid (s : Scope) (I : Interp) (t : Term) : Prop :=
  ∀ ρ, s.Standard I ρ → I.Holds (t.eval I ρ)

/-- The state that a standard assignment shows. -/
def Scope.Standard.state {s : Scope} {I : Interp} {ρ : Assignment I.Value} (h : s.Standard I ρ) :
    State I s :=
  ⟨Assignment.view ρ, h.fits⟩

theorem Means.holds_iff {s : Scope} {X : Stock} {e : Expr} {t : Term}
    (h : Means s [] (e.meaning s []) X t) {M : Machine s} {ρ : Assignment M.interp.Value}
    (hρ : s.Standard M.interp ρ) {a : M.St} (ha : s.Shows M.interp ρ a.get) :
    M.interp.Holds (t.eval M.interp ρ) ↔ M.Holds e a := by
  rw [h.eval M.interp ρ a.get a.fits (hρ.reads ha), Machine.Holds, Expr.meaning]

namespace Machine

variable {s : Scope}

/-- The term holds of the state, whatever values the versions have. -/
def Sure (M : Machine s) (t : Term) (a : M.St) : Prop :=
  ∀ ρ, s.Standard M.interp ρ → s.Shows M.interp ρ a.get → M.interp.Holds (t.eval M.interp ρ)

end Machine

/-- The first term is sure before the action exactly when the action does not
    fail and the second is sure after it. -/
structure Precondition (s : Scope) (act : Action) (post : Term) (X : Stock) (pre : Term) :
    Prop where
  isOver : Over s X pre
  sure : ∀ (M : Machine s) (a : M.St), M.Sure pre a ↔
    ¬ M.Refutes act a ∧ ∀ b, M.Does false act a b → M.Sure post b

section Steps

variable {c : Condition} {W X : Stock} {post : Term} (hth : c.theory.Advances)
  (hs : c.scope.PlainNames) (hsep : c.scope.Separated) (hpost : Over c.scope W post)

theorem precondition_of_skip {s : Scope} {act : Action} (hover : Over s X post)
    (href : ∀ (M : Machine s) (a : M.St), ¬ M.Refutes act a)
    (hdoes : ∀ (M : Machine s) (a b : M.St), M.Does false act a b ↔ b = a) :
    Precondition s act post X post := by
  refine ⟨hover, fun M a => ⟨fun h => ⟨href M a, fun b hb => ?_⟩, fun h => ?_⟩⟩
  · rw [(hdoes M a b).mp hb]
    exact h
  · exact h.2 a ((hdoes M a a).mpr rfl)

theorem encodes_true (s : Scope) : Encodes W (liftM (Term.formula true)) fun X t =>
    Over s X t ∧ ∀ (I : Interp) (ρ : Assignment I.Value), I.Holds (t.eval I ρ) := by
  refine yields_lift ((Theory.builds_formula W true []).mono fun X t _ ht =>
    ⟨⟨ht.has, fun n hn => ?_⟩, fun I ρ => (ht.holds I ρ).mpr rfl⟩)
  rcases ht.free n hn with ⟨_, hmem, _⟩
  simp at hmem

include hth hs hsep hpost

theorem encodes_weakestBefore_assert {e : Expr} (he : (Action.assert e).WellTyped c.scope) :
    Encodes W (c.weakestBefore post (.assert e)) (Precondition c.scope (.assert e) post) := by
  rw [Condition.weakestBefore]
  refine yields_bind (encodes_encode hth hs e he.1 he.2 fun _ => rfl) fun X t hX ht => ?_
  have hpost := hpost.mono hX
  -- With or without assuming the assertion, the rest says the same where the
  -- assertion holds.
  have hboth : ∀ Y rest, X ≤ Y → Over c.scope Y rest → (∀ (I : Interp) (ρ : Assignment I.Value),
      I.Holds (t.eval I ρ) → (I.Holds (rest.eval I ρ) ↔ I.Holds (post.eval I ρ))) →
      Encodes Y (liftM (c.theory.and [t, rest])) (Precondition c.scope (.assert e) post) := by
    intro Y rest hY hover hsame
    refine yields_lift ((Theory.builds_and hth (by simp [hover.has, ht.has.mono hY])).mono
      fun Z pre hZ hpre => ⟨hpre.isOver (W := Y) (by simp [hover, ht.isOver.mono hY]) hZ,
        fun M a => ?_⟩)
    have hiff : ∀ ρ, c.scope.Standard M.interp ρ → c.scope.Shows M.interp ρ a.get →
        (M.interp.Holds (pre.eval M.interp ρ) ↔
          M.Holds e a ∧ M.interp.Holds (post.eval M.interp ρ)) := by
      intro ρ hρ ha
      rw [hpre.holds, forall_mem_cons, forall_mem_singleton, ← ht.holds_iff hρ ha]
      exact and_congr_right (hsame M.interp ρ)
    -- A term is sure for lack of assignments too, so that the assertion holds
    -- needs one that shows the state.
    rcases Scope.exists_shows hs hsep a with ⟨ρ₀, hρ₀, ha₀⟩
    constructor
    · refine fun h => ⟨not_not.mpr ((hiff ρ₀ hρ₀ ha₀).mp (h ρ₀ hρ₀ ha₀)).1, ?_⟩
      rintro b ⟨rfl, _⟩ ρ hρ hb
      exact ((hiff ρ hρ hb).mp (h ρ hρ hb)).2
    · rintro ⟨href, hall⟩ ρ hρ ha
      exact (hiff ρ hρ ha).mpr ⟨not_not.mp href, hall a ⟨rfl, by simp⟩ ρ hρ ha⟩
  dsimp only
  split
  · refine yields_bind (yields_lift (Theory.builds_implies hth ht.has hpost.has))
      fun Y rest hY hrest =>
        hboth Y rest hY (hrest.isOver (W := X) (by simp [ht.isOver, hpost]) hY) ?_
    intro I ρ h
    rw [hrest.holds]
    exact ⟨fun h' => h' h, fun h' _ => h'⟩
  · exact hboth X post X.refl hpost fun I ρ _ => Iff.rfl

omit hsep in
theorem encodes_weakestBefore_assume {e : Expr} (he : (Action.assume e).WellTyped c.scope) :
    Encodes W (c.weakestBefore post (.assume e)) (Precondition c.scope (.assume e) post) := by
  rw [Condition.weakestBefore]
  refine yields_bind (encodes_encode hth hs e he.1 he.2 fun _ => rfl) fun X t hX ht => ?_
  have hpost := hpost.mono hX
  refine yields_lift ((Theory.builds_implies hth ht.has hpost.has).mono
    fun Y pre hY hpre => ⟨hpre.isOver (W := X) ?_ hY, fun M a => ?_⟩)
  · simp [ht.isOver, hpost]
  · constructor
    · refine fun h => ⟨id, ?_⟩
      rintro b ⟨rfl, he⟩ ρ hρ hb
      exact (hpre.holds M.interp ρ).mp (h ρ hρ hb) ((ht.holds_iff hρ hb).mpr he)
    · rintro ⟨_, hall⟩ ρ hρ ha
      exact (hpre.holds M.interp ρ).mpr fun he =>
        hall a ⟨rfl, (ht.holds_iff hρ ha).mp he⟩ ρ hρ ha

theorem encodes_weakestBefore_assign {pairs : List (String × Expr)}
    (hpairs : (Action.assign pairs).WellTyped c.scope) :
    Encodes W (c.weakestBefore post (.assign pairs))
      (Precondition c.scope (.assign pairs) post) := by
  rw [Condition.weakestBefore]
  refine yields_bind (encodes_assignments hth hs hsep pairs hpairs.2) fun X σ hX hσ => ?_
  refine yields_lift ((builds_moved hs hσ (hpost.mono hX)).mono
    fun Y pre _ ⟨hover, heval⟩ => ⟨hover, fun M a => ?_⟩)
  constructor
  · -- The versions keep on the near side what they are on the far side.
    refine fun h => ⟨id, fun b hb τ hτ hshow => ?_⟩
    rcases hσ.exists_assigned hs hpairs hsep hb hτ hshow with ⟨ρ, hρ, ha, hagree⟩
    rw [← hpost.eval_congr (hagree W.names), ← heval]
    exact h ρ hρ ha
  · rintro ⟨_, hall⟩ ρ hρ ha
    have hτ := hσ.standard_assigned hs hpairs hρ
    have hshow := hσ.shows_assigned hpairs hρ ha
    rw [heval]
    refine hall ⟨M.interp.assigned c.scope pairs a.get, fun x T hx => ?_⟩ rfl _ hτ hshow
    rw [← hshow x T hx]
    exact hτ.value 0 x T (Scope.version_of_varType? hx 0)

theorem encodes_weakestBefore_havoc {vars : List String}
    (hvars : (Action.havoc vars).WellTyped c.scope) :
    Encodes W (c.weakestBefore post (.havoc vars)) (Precondition c.scope (.havoc vars) post) := by
  rw [Condition.weakestBefore]
  refine yields_bind (encodes_versions hth hs hsep vars) fun X σ hX ⟨num, hnum, hσ⟩ => ?_
  refine yields_lift ((builds_moved hs hσ (hpost.mono hX)).mono
    fun Y pre _ ⟨hover, heval⟩ => ⟨hover, fun M a => ?_⟩)
  constructor
  · -- The versions are newer than all that is needed after, and so they can be
    -- chosen to be what the forgotten variables become.
    refine fun h => ⟨id, fun b hb τ hτ hshow => ?_⟩
    rcases hσ.exists_renewed hs hvars hsep hnum (fun x hx => (hb x hx).symm) hτ hshow with
      ⟨ρ, hρ, ha, hagree⟩
    rw [← hpost.eval_congr hagree, ← heval]
    exact h ρ hρ ha
  · rintro ⟨_, hall⟩ ρ hρ ha
    rcases hσ.shows_renew hs hvars hρ ha with ⟨b, hb, hab⟩
    rw [heval]
    exact hall b hab _ (hσ.standard_renew hs hvars hρ) hb

theorem encodes_weakestBefore {act : Action} (hact : act.WellTyped c.scope) :
    Encodes W (c.weakestBefore post act) (Precondition c.scope act post) := by
  cases act with
  | assert e => exact encodes_weakestBefore_assert hth hs hsep hpost hact
  | assume e => exact encodes_weakestBefore_assume hth hs hpost hact
  | assign pairs => exact encodes_weakestBefore_assign hth hs hsep hpost hact
  | havoc vars => exact encodes_weakestBefore_havoc hth hs hsep hpost hact
  | call site => exact yields_throw trivial
  | goto targets =>
    exact yields_pure (precondition_of_skip hpost (fun _ _ => id) fun _ _ _ => Iff.rfl)
  | skip => exact yields_pure (precondition_of_skip hpost (fun _ _ => id) fun _ _ _ => Iff.rfl)

end Steps

/-- The table has a term for each of some nodes, as described, and nothing
    else. -/
structure Tabled (Q : Nat → Stock → Term → Prop) (done : List Nat) (X : Stock)
    (table : List (Nat × Term)) : Prop where
  entries : ∀ e ∈ table, Q e.1 X e.2
  listed : ∀ v ∈ done, ∃ t, table.lookup v = some t
  absent : ∀ v, v ∉ done → table.lookup v = none

namespace Tabled

variable {Q : Nat → Stock → Term → Prop} {done : List Nat} {W X : Stock}
  {table : List (Nat × Term)} (hQ : ∀ v W X t, W ≤ X → Q v W t → Q v X t)

theorem nil (X : Stock) : Tabled Q [] X [] :=
  ⟨by simp, by simp, fun _ _ => rfl⟩

variable {v : Nat}

theorem found (h : Tabled Q done X table) (hv : v ∈ done) :
    ∃ t, table.lookup v = some t ∧ Q v X t := by
  rcases h.listed v hv with ⟨t, ht⟩
  exact ⟨t, ht, h.entries (v, t) (mem_of_lookup ht)⟩

include hQ in
theorem mono (h : Tabled Q done W table) (hWX : W ≤ X) : Tabled Q done X table :=
  ⟨fun e he => hQ e.1 W X e.2 hWX (h.entries e he), h.listed, h.absent⟩

theorem cons (h : Tabled Q done X table) {t : Term} (ht : Q v X t) {done' : List Nat}
    (hdone : ∀ w, w ∈ done' ↔ w = v ∨ w ∈ done) : Tabled Q done' X ((v, t) :: table) := by
  have hother : ∀ w, w ≠ v → ((v, t) :: table).lookup w = table.lookup w := by
    intro w hw
    have hne : (w == v) = false := by simpa using hw
    rw [lookup_cons, hne]
  refine ⟨forall_mem_cons.mpr ⟨ht, h.entries⟩, fun w hw => ?_, fun w hw => ?_⟩
  · by_cases hwv : w = v
    · subst hwv
      exact ⟨t, by simp⟩
    · rw [hother w hwv]
      exact h.listed w (((hdone w).mp hw).resolve_left hwv)
  · rw [hdone, not_or] at hw
    rw [hother w hw.1]
    exact h.absent w hw.2

theorem encodes_lookup (h : Tabled Q done W table) (hv : v ∈ done) :
    Encodes W (Condition.lookup table v) (Q v) := by
  rcases h.found hv with ⟨t, ht, hq⟩
  rw [Condition.lookup, ht]
  exact yields_pure hq

include hQ in
theorem encodes_lookups (h : Tabled Q done W table) {vs : List Nat} (hvs : ∀ v ∈ vs, v ∈ done) :
    Encodes W (vs.mapM (Condition.lookup table)) fun X ts =>
      Forall₂ (fun t v => Q v X t) ts vs := by
  refine yields_mapM (R := Q) (fun v W X t hWX hq => hQ v W X t hWX hq) fun v hv _ hX => ?_
  exact (h.mono hQ hX).encodes_lookup (hvs v hv)

end Tabled

section Graph

variable {s : Scope} {M : Machine s} {body : Body} {g : FlowGraph} {v : Nat}

theorem Machine.not_fails_iff {cmd : Command} (hcmd : body[v]? = some cmd) {a : M.St} :
    ¬ M.Fails body g v a ↔ ¬ M.Refutes cmd.action a ∧
      ∀ b, M.Does false cmd.action a b → ∀ w ∈ g.successors v, ¬ M.Fails body g w b := by
  constructor
  · intro h
    exact ⟨fun href => h (.here ⟨cmd, hcmd, href⟩),
      fun b hb w hw hfails => h (.later hcmd hb hw hfails)⟩
  · rintro ⟨href, hall⟩ hfails
    cases hfails with
    | here hviol =>
      rcases hviol with ⟨cmd', hcmd', href'⟩
      rw [hcmd, Option.some.injEq] at hcmd'
      exact href (hcmd' ▸ href')
    | later hcmd' hdoes hw hfails =>
      rw [hcmd, Option.some.injEq] at hcmd'
      exact hall _ (hcmd' ▸ hdoes) _ hw hfails

theorem Machine.not_fails_of_none (h : body[v]? = none) (a : M.St) : ¬ M.Fails body g v a := by
  intro hfails
  cases hfails with
  | here hviol =>
    rcases hviol with ⟨cmd, hcmd, _⟩
    simp [h] at hcmd
  | later hcmd => simp [h] at hcmd

/-- The term says that no execution fails from the node. -/
structure Guards (s : Scope) (body : Body) (g : FlowGraph) (v : Nat) (X : Stock) (t : Term) :
    Prop where
  isOver : Over s X t
  sure : ∀ (M : Machine s) (a : M.St), M.Sure t a ↔ ¬ M.Fails body g v a

theorem Guards.mono {W X : Stock} {t : Term} (h : Guards s body g v W t) (hWX : W ≤ X) :
    Guards s body g v X t :=
  ⟨h.isOver.mono hWX, h.sure⟩

variable {c : Condition} {W : Stock} (hth : c.theory.Advances) (hs : c.scope.PlainNames)
  (hsep : c.scope.Separated) (hbody : body.WellTyped c.scope) (hsize : g.size = body.length)
  {order : List Nat} (horder : g.Sorted order)
include hth hs hsep hbody hsize horder

theorem encodes_weakestStep {p done : List Nat} (hsplit : order = p ++ v :: done)
    {table : List (Nat × Term)} (htable : Tabled (Guards c.scope body g) done W table) :
    Encodes W (c.weakestStep body g table v) (Tabled (Guards c.scope body g) (v :: done)) := by
  have hmono : ∀ v W X t, W ≤ X → Guards c.scope body g v W t → Guards c.scope body g v X t :=
    fun _ _ _ _ hWX h => h.mono hWX
  have hlt : v < body.length := hsize ▸ (horder.complete v).mp (by simp [hsplit])
  have hcmd : body[v]? = some body[v] := getElem?_eq_getElem hlt
  unfold Condition.weakestStep
  refine yields_bind (htable.encodes_lookups hmono fun w hw => horder.after hsplit hw)
    fun X₁ ts h₁ hts => ?_
  have hover : ∀ t ∈ ts, Over c.scope X₁ t := fun t ht => by
    rcases exists_of_forall₂_left hts ht with ⟨_, _, h⟩
    exact h.isOver
  refine yields_bind (yields_lift (Theory.builds_and hth fun t ht => (hover t ht).has))
    fun X₂ post h₂ hpost => ?_
  -- What comes after the node is safe if all its successors are.
  have hsure : ∀ (M : Machine c.scope) (b : M.St),
      M.Sure post b ↔ ∀ w ∈ g.successors v, ¬ M.Fails body g w b := by
    intro M b
    constructor
    · intro h w hw
      rcases exists_of_forall₂_right hts hw with ⟨t, ht, hguards⟩
      exact (hguards.sure M b).mp fun ρ hρ hb => (hpost.holds M.interp ρ).mp (h ρ hρ hb) t ht
    · intro h ρ hρ hb
      refine (hpost.holds M.interp ρ).mpr fun t ht => ?_
      rcases exists_of_forall₂_left hts ht with ⟨w, hw, hguards⟩
      exact (hguards.sure M b).mpr (h w hw) ρ hρ hb
  rw [hcmd]
  refine yields_bind (encodes_weakestBefore hth hs hsep (hpost.isOver hover h₂)
    (hbody _ (getElem_mem hlt))) fun X₃ pre h₃ hpre => yields_pure ?_
  refine (htable.mono hmono (h₁.trans (h₂.trans h₃))).cons ⟨hpre.isOver, fun M a => ?_⟩ (by simp)
  rw [hpre.sure, Machine.not_fails_iff hcmd]
  simp only [hsure]

theorem encodes_guards : ∀ {todo done : List Nat} {W : Stock} {table : List (Nat × Term)},
    order = todo.reverse ++ done → Tabled (Guards c.scope body g) done W table →
    Encodes W (todo.foldlM (c.weakestStep body g) table) (Tabled (Guards c.scope body g) order)
  | [], done, W, table, hsplit, htable => by
    rw [reverse_nil, nil_append] at hsplit
    exact hsplit ▸ yields_pure htable
  | v :: todo, done, W, table, hsplit, htable => by
    rw [reverse_cons, append_assoc] at hsplit
    rw [foldlM_cons]
    exact yields_bind (encodes_weakestStep hth hs hsep hbody hsize horder hsplit htable)
      fun X table' _ htable' => encodes_guards hsplit htable'

/-- The condition is sure of a state exactly if nothing fails from there. -/
theorem encodes_weakest_sure : Encodes W (c.weakest body g order) fun X t =>
    Over c.scope X t ∧ ∀ (M : Machine c.scope) (a : M.St),
      M.Sure t a ↔ ∀ v, g.entry = some v → ¬ M.Fails body g v a := by
  unfold Condition.weakest
  refine yields_bind (encodes_guards hth hs hsep hbody hsize horder (by simp) (Tabled.nil W))
    fun X table _ htable => ?_
  split
  · next v hentry =>
    simp only [hentry, Option.some.injEq, forall_eq']
    by_cases hv : v ∈ order
    · exact (htable.encodes_lookup hv).mono fun _ _ _ h => ⟨h.isOver, h.sure⟩
    · -- An entry that is no node has no command.
      have hnone : body[v]? = none := by
        rw [List.getElem?_eq_none_iff, ← hsize]
        exact not_lt.mp fun h => hv ((horder.complete v).mpr h)
      rw [Condition.lookup, htable.absent v hv]
      refine (encodes_true c.scope).mono fun Y t _ ⟨hover, hholds⟩ => ⟨hover, fun M a => ?_⟩
      exact ⟨fun _ => Machine.not_fails_of_none hnone a, fun _ ρ _ _ => hholds M.interp ρ⟩
  · next hentry =>
    refine (encodes_true c.scope).mono fun Y t _ ⟨hover, hholds⟩ => ⟨hover, fun M a => ?_⟩
    exact ⟨fun _ v h => by simp [hentry] at h, fun _ ρ _ _ => hholds M.interp ρ⟩

end Graph

end Vouch
