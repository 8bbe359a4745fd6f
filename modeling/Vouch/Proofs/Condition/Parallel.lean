import Vouch.Proofs.Condition.Stratification
import Vouch.Proofs.Term.Parallel

/-!
# Conditions Side by Side

A condition computed later than another draws other identities and other numbers,
and there is nothing else that can be different about it. For this the relabelling has
to know what is drawn, and to leave alone what the program calls its variables.

## Main definitions

* `Alongside`: Two computations end with related results and matching encoders.
* `Relabelling.Respects`: The names of declared variables are left alone.

## Theorems

* `alongside_compute`: Computing twice gives a term and the same term relabelled, or
  the same error twice.
-/

namespace Vouch

open Term

/-- The supplies are related, and the pairs of the second encoder are those of the
    first, relabelled. -/
structure Encoder.Matches (φ : Relabelling) (K : Supply → Supply → Prop) (e e' : Encoder) :
    Prop where
  supply : K e.supply e'.supply
  pairs : ∀ n, e'.pairs.find? (φ.name n) = (e.pairs.find? n).map (VarTerms.relabel φ)

/-- Two results are the same error, or both there and related. -/
inductive Outcomes {α : Type} (R : α → α → Prop) :
    Except ConditionError α → Except ConditionError α → Prop where
  | error (err : ConditionError) : Outcomes R (.error err) (.error err)
  | ok {a a' : α} (h : R a a') : Outcomes R (.ok a) (.ok a')

theorem Outcomes.exists_of_ok {α : Type} {R : α → α → Prop} {x x' : Except ConditionError α}
    {a' : α} (h : Outcomes R x x') (ha' : x' = .ok a') : ∃ a, x = .ok a ∧ R a a' := by
  cases h with
  | error err => cases ha'
  | ok hR =>
    cases ha'
    exact ⟨_, rfl, hR⟩

/-- Started with matching encoders, the computations end with related results and
    matching encoders. -/
def Alongside {α : Type} (φ : Relabelling) (K : Supply → Supply → Prop) (m m' : Encode α)
    (R : α → α → Prop) : Prop :=
  ∀ e e', Encoder.Matches φ K e e' → Outcomes R (m.run.run e).1 (m'.run.run e').1 ∧
    Encoder.Matches φ K (m.run.run e).2 (m'.run.run e').2

variable {φ : Relabelling} {K : Supply → Supply → Prop}

section Rules

variable {α β : Type} {R : α → α → Prop} {Q : β → β → Prop}

theorem alongside_pure {a a' : α} (h : R a a') : Alongside φ K (pure a) (pure a') R :=
  fun _ _ he => ⟨.ok h, he⟩

variable {f f' : α → Encode β} {m m' : Encode α}

theorem alongside_bind (hm : Alongside φ K m m' R)
    (hf : ∀ a a', R a a' → Alongside φ K (f a) (f' a') Q) :
    Alongside φ K (m >>= f) (m' >>= f') Q := by
  intro e e' he
  rcases hm e e' he with ⟨hresult, hnext⟩
  rw [ExceptT.run_bind, StateT.run_bind, ExceptT.run_bind, StateT.run_bind]
  rcases hme : m.run.run e with ⟨r, k⟩
  rcases hme' : m'.run.run e' with ⟨r', k'⟩
  rw [hme, hme'] at hresult hnext
  cases hresult with
  | error err => exact ⟨.error err, hnext⟩
  | ok h => exact hf _ _ h k k' hnext

theorem alongside_lift {m m' : Fresh α} (h : Parallel K m m' R) :
    Alongside φ K (liftM m) (liftM m') R := by
  intro e e' he
  rcases h _ _ he.supply with ⟨hresult, hnext⟩
  exact ⟨.ok hresult, hnext, he.pairs⟩

theorem Alongside.outcomes (h : Alongside φ K m m' R) {s s' : Supply} (hs : K s s') :
    Outcomes R (m.runFresh.run s).1 (m'.runFresh.run s').1 :=
  (h { supply := s } { supply := s' } ⟨hs, fun _ => rfl⟩).1

theorem Alongside.mono {R' : α → α → Prop} (hm : Alongside φ K m m' R)
    (h : ∀ a a', R a a' → R' a a') : Alongside φ K m m' R' := by
  have hpure := alongside_bind hm fun a a' ha => alongside_pure (h a a' ha)
  rwa [bind_pure, bind_pure] at hpure

/-- Follow both computations, with any errors. -/
def Relabelling.tandem (φ : Relabelling) (K : Supply → Supply → Prop) : Tandem Unit where
  toCoupling := φ.coupling K
  Yields _ m m' Q := Alongside φ K m m' (Q ())
  error _ := True
  yields_pure h := alongside_pure h
  yields_throw _ := fun _ _ he => ⟨.error _, he⟩
  yields_bind hm hf := alongside_bind hm fun a a' ha => hf () a a' le_rfl ha
  yields_lift h := alongside_lift h

theorem Tandem.Brings.alongside {m m' : Encode Term} {R : Unit → Term → Prop}
    (h : (φ.tandem K).Brings () m m' R) : Alongside φ K m m' φ.Copies :=
  Alongside.mono h fun _ _ ht => ht.1

end Rules

/-- The names under which declared variables appear are left alone. -/
structure Relabelling.Respects (φ : Relabelling) (s : Scope) : Prop where
  formula : ∀ {x}, s.varType? x = some .bool → φ.name x = x
  value : ∀ {x T}, s.varType? x = some T → φ.name (valueName x) = valueName x

/-- The versions that are numbered next correspond, and the supplies stay related when
    they are. -/
structure Relabelling.Counts (φ : Relabelling) (K : Supply → Supply → Prop) (s : Scope) :
    Prop where
  formula : ∀ {u u' x}, K u u' → s.varType? x = some .bool →
    φ.name (versionName x u.nextName) = versionName x u'.nextName
  value : ∀ {u u' x T}, K u u' → s.varType? x = some T →
    φ.name (valueName (versionName x u.nextName)) = valueName (versionName x u'.nextName)
  next : ∀ {u u'}, K u u' →
    K { u with nextName := u.nextName + 1 } { u' with nextName := u'.nextName + 1 }

section Encoding

variable {c : Encoding} (hth : c.theory.Steady φ K) (hK : φ.Draws K)
include hth hK

variable {x : String}

theorem parallel_linkedPair {y : String} (hformula : φ.name x = y)
    (hvalue : φ.name (valueName x) = valueName y) :
    Parallel K (c.linkedPair x) (c.linkedPair y) fun v v' => v' = v.relabel φ := by
  unfold Encoding.linkedPair
  rw [← hvalue, ← hformula]
  refine parallel_step (parallel_var hK x _) fun f => ?_
  refine parallel_step (parallel_var hK (valueName x) _) fun v => ?_
  refine parallel_step (hth.boolLit hK true) fun l => ?_
  refine parallel_step (hth.make hK .eq .formula [v, l]) fun e => ?_
  refine parallel_step (hth.make hK .iff .formula [f, e]) fun link => ?_
  refine parallel_step (parallel_make hK _ [] [link]) fun t => ?_
  exact parallel_pure rfl

theorem alongside_varTerms {y : String} {T : Ty} (hformula : T = .bool → φ.name x = y)
    (hvalue : φ.name (valueName x) = valueName y) :
    Alongside φ K (c.varTerms x T) (c.varTerms y T)
      fun v v' => v' = v.relabel φ ∧ v.Known (fun _ _ _ => True) T () := by
  cases hT : T.isBool with
  | false =>
    rw [Encoding.varTerms, Encoding.varTerms, hT, ← hvalue]
    refine alongside_bind (alongside_lift (parallel_var hK _ _)) ?_
    rintro t _ rfl
    exact alongside_pure ⟨rfl, trivial, fun _ h => by cases h⟩
  | true =>
    obtain rfl := Ty.isBool_iff.mp hT
    obtain rfl := hformula rfl
    intro e e' he
    rw [varTerms_run, varTerms_run, he.pairs x]
    cases e.pairs.find? x with
    | some pair => exact ⟨.ok ⟨rfl, trivial, fun _ _ => ⟨rfl, trivial⟩⟩, he⟩
    | none =>
      rcases parallel_linkedPair hth hK rfl hvalue _ _ he.supply with ⟨hpair, hsupply⟩
      refine ⟨.ok ⟨hpair, trivial, fun _ _ => ⟨rfl, trivial⟩⟩, hsupply, fun n => ?_⟩
      dsimp only [Option.map_none]
      rw [NameMap.find?_insert, NameMap.find?_insert]
      by_cases hn : n = x
      · rw [if_pos hn, if_pos (congrArg φ.name hn), hpair]
        rfl
      · rw [if_neg hn, if_neg (φ.injective.ne hn)]
        exact he.pairs n

theorem Encoding.upholds_copies : c.Upholds (φ.tandem K)
    (fun x => φ.name (valueName x) = valueName x) (fun _ => True)
    (fun x y T => (T = .bool → φ.name x = y) ∧ φ.name (valueName x) = valueName y)
    (fun _ _ => True) fun _ _ _ _ => True where
  error _ := trivial
  theory _ := hth.upholds hK
  keep _ _ := trivial
  var {_ x T} hx := by
    have hvar := parallel_var hK (valueName x) T.sort
    rw [hx] at hvar
    exact hvar.copies
  bound _ _ _ := trivial
  declared _ {_ _ _ _} h := alongside_varTerms hth hK h.1 h.2
  all _ _ := (hth.all hK _ _).copies

theorem alongside_encode (hφ : φ.Respects c.scope) (e : Expr) (side : Side)
    (Γ : List (String × Ty)) (hnames : ∀ x ∈ e.names, φ.name (valueName x) = valueName x) :
    Alongside φ K (c.encode side Γ e) (c.encode side Γ e) φ.Copies := by
  have hcopies := Encoding.upholds_copies hth hK
  refine (yields_encode hcopies e side (Expr.spelled_of_names hnames) ?_).alongside
  intro _ _ _ _ hT
  exact ⟨fun h => hφ.formula (h ▸ hT), hφ.value hT⟩

end Encoding

section Condition

variable {c : Condition} (hth : c.theory.Steady φ K) (hK : φ.Draws K) (hφ : φ.Respects c.scope)
  (hcounts : φ.Counts K c.scope)
include hth hK hφ hcounts

theorem Condition.upholds_copies : c.Upholds (φ.tandem K)
    (fun x => φ.name (valueName x) = valueName x) (fun _ => True)
    (fun x y T => (T = .bool → φ.name x = y) ∧ φ.name (valueName x) = valueName y)
    (fun _ _ => True) (fun _ _ => True) fun _ _ _ _ => True where
  toUpholds := Encoding.upholds_copies hth hK
  scope hT := ⟨fun h => hφ.formula (h ▸ hT), hφ.value hT⟩
  version hT _ _ hu :=
    ⟨⟨fun h => hcounts.formula hu (h ▸ hT), hcounts.value hu hT⟩, hcounts.next hu⟩
  value hT := ⟨trivial, hφ.value hT⟩
  formula hT := ⟨trivial, hφ.formula hT⟩
  subst _ _ := (parallel_subst hK _ _).copies
  renew {_ t l r σ} _ _ _ _ := by
    refine (φ.tandem K).next (R := fun _ _ => True) (alongside_lift (parallel_subst hK r σ).copies)
      fun _ r' _ _ => alongside_lift ?_
    exact (parallel_withChildren hK t [l, r']).copies

theorem alongside_compute (name : String) {body : Body}
    (hbody : ∀ x, body.Mentions x → φ.name (valueName x) = valueName x) (g : FlowGraph) :
    Alongside φ K (c.compute name body g) (c.compute name body g) φ.Copies := by
  have hspelled : ∀ command ∈ body, ∀ e ∈ command.action.exprs,
      e.Spelled (fun x => φ.name (valueName x) = valueName x) fun _ => True := by
    intro command hcommand e he
    exact Expr.spelled_of_names fun x hx => hbody x ⟨command, hcommand, e, he, hx⟩
  have hcopies := Condition.upholds_copies hth hK hφ hcounts
  exact (yields_compute hcopies hspelled (fun _ => trivial) name g).alongside

end Condition

end Vouch
