import Vouch.Proofs.Condition.Upkeep

/-!
# What Encoding Keeps

What kind of axioms a term carries, and which variables its free names belong to, does
not depend on what was made before. But the terms of a boolean variable are remembered
from one use to the next, so what is known of them has to be known of everything that
is remembered.

## Main definitions

* `Keeps`: Remembered pairs stay as described.
* `VarTerms.PairOf`: A pair with nothing attached but axioms of a kind.

## Theorems

* `Encoding.upholds_carries`: Encoding keeps which axioms are carried.
* `Encoding.upholds_freeIn`: And to which variables free names belong.
-/

namespace Vouch

open List Term

/-- If all remembered pairs are as described, they stay so, and the result, if
    there is one, is as described. -/
def Keeps {α : Type} (K : String → VarTerms → Prop) (m : Encode α) (Q : α → Prop) : Prop :=
  ∀ k : Encoder, (∀ x p, k.pairs.find? x = some p → K x p) →
    (∀ x p, (m.run.run k).2.pairs.find? x = some p → K x p) ∧ ∀ a, (m.run.run k).1 = .ok a → Q a

/-- What is remembered is as described, and errors are of a kind. -/
def Regime.ofPairs (K : String → VarTerms → Prop) (E : ConditionError → Prop) : Regime Unit where
  fits _ _ := True
  pair _ := K
  mono _ h := h
  error := E

variable {E : ConditionError → Prop} {K : String → VarTerms → Prop} {A : Term → Prop}

theorem Regime.Yields.keeps {α : Type} {m : Encode α} {Q : α → Prop}
    (h : (Regime.ofPairs K E).Yields () m fun _ => Q) : Keeps K m Q := by
  intro k hk
  rcases h k ⟨trivial, hk⟩ with ⟨_, _, hpairs, hok, _⟩
  exact ⟨hpairs.pairs, hok⟩

theorem Regime.Yields.and {α : Type} {m : Encode α} {Q R : α → Prop}
    (h : (Regime.ofPairs K E).Yields () m fun _ => Q)
    (h' : (Regime.ofPairs K E).Yields () m fun _ => R) :
    (Regime.ofPairs K E).Yields () m fun _ a => Q a ∧ R a := by
  intro k hk
  rcases h k hk with ⟨_, hle, hpairs, hok, herror⟩
  rcases h' k hk with ⟨_, _, _, hok', _⟩
  exact ⟨_, hle, hpairs, fun a ha => ⟨hok a ha, hok' a ha⟩, herror⟩

theorem Keeps.of_runFresh {α : Type} {Q : α → Prop} {m : Encode α} {supply : Supply} {a : α}
    (hm : Keeps K m Q) (h : (m.runFresh.run supply).1 = .ok a) : Q a :=
  (hm { supply } fun _ _ hp => by cases hp).2 a h

/-- The term says that the formula of a boolean variable holds exactly when its
    value is the true one. -/
structure Term.Links (x : String) (link : Term) : Prop where
  head : link.head = { op := .iff, sort := .formula }
  parts : ∃ f e v l, link.children = [f, e] ∧ f.name? = some x ∧
    e.head = { op := .eq, sort := .formula } ∧ e.children = [v, l] ∧
    v.name? = some (valueName x) ∧
    l.head = { op := .lit, sort := .bool, payload := some (.bool true) } ∧
    l.children = []

/-- A pair made for the variable, with nothing attached but axioms of the kind. -/
structure VarTerms.PairOf (A : Term → Prop) (x : String) (p : VarTerms) : Prop where
  term : p.term.name? = some (valueName x)
  formula : ∀ f, p.formula = some f → f.name? = some x
  carries : Carries A p.term
  carries_formula : ∀ f, p.formula = some f → Carries A f

theorem gives_linkedPair {c : Encoding} (hth : c.theory.Attaches A) {x : String}
    (hlink : ∀ link, Links x link → A link) : Gives (c.linkedPair x) (VarTerms.PairOf A x) := by
  unfold Encoding.linkedPair
  refine gives_bind (gives_bareVar x .formula) fun f hf => ?_
  refine gives_bind (gives_bareVar (valueName x) .bool) fun v hv => ?_
  refine gives_bind ((gives_make _ _ _).and (gives_make_carries (by simp) hth.literals))
    fun l hl => ?_
  refine gives_bind ((gives_theory_make _ _ _ _).and
    (hth.make _ _ (by simp [hv.carries, hl.2]))) fun e he => ?_
  refine gives_bind ((gives_theory_make _ _ _ _).and
    (hth.make _ _ (by simp [hf.carries, he.2]))) fun link hl' => ?_
  have hA : A link := hlink link ⟨hl'.1.1, f, e, v, l, hl'.1.2, hf.name?, he.1.1, he.1.2, hv.name?,
    hl.1.1, hl.1.2.1⟩
  intro s
  refine ⟨rfl, ?_, ?_, ?_⟩
  · rintro _ ⟨⟩
    exact hf.name?
  · exact gives_make_carries (by simp) (by simpa using ⟨hA, hl'.2⟩) s
  · rintro _ ⟨⟩
    exact hf.carries

section Declared

variable {K : String → VarTerms → Prop} {E : ConditionError → Prop} {c : Encoding}

theorem yields_pairOf {x : String} {T : Ty} (h : T = .bool → Gives (c.linkedPair x) (K x)) :
    (Regime.ofPairs K E).Yields () (c.varTerms x T) fun _ p =>
      (T = .bool ∧ K x p) ∨ p.formula = none ∧ BareVar (valueName x) T.sort p.term := by
  refine yields_varTerms c (fun hT p hp => .inl ⟨hT, hp⟩) (fun hT => ?_) fun _ => ?_
  · exact (h hT).leaves.mono fun _ p _ hp => ⟨hp, .inl ⟨hT, hp⟩⟩
  · exact (gives_bareVar _ _).leaves.mono fun _ t _ ht => .inr ⟨rfl, ht⟩

end Declared

/-- Terms carry axioms of their operators, and links of boolean variables. -/
theorem Encoding.upholds_carries {D : String → Ty → Prop} {c : Encoding}
    (hth : c.theory.Attaches A) (hlink : ∀ x, D x .bool → ∀ link, Links x link → A link) :
    c.Upholds (Regime.ofPairs (VarTerms.PairOf A) fun _ => True).tandem (fun _ => True)
      (fun _ => True) (fun x _ T => D x T) (fun _ _ => True) fun _ _ _ => Carries A where
  error _ := trivial
  theory _ := hth.upholds
  keep _ _ := trivial
  var _ := (Gives.leaves fun _ => trivial).copies
  bound _ ht _ := ht.carries
  declared _ {_ x _ T} hD := by
    refine ((yields_pairOf fun hT => gives_linkedPair hth (hlink x (hT ▸ hD))).mono
      fun _ p _ hp => ?_).beside
    rcases hp with ⟨hT, hp⟩ | ⟨hnone, hvar⟩
    · exact ⟨hp.carries, fun f hf => ⟨hT, hp.carries_formula f hf⟩⟩
    · exact ⟨hvar.carries, by simp [hnone]⟩
  all hvs hb := by
    refine (hth.all (fun v hv => ?_) hb).leaves.copies
    rcases exists_of_forall₂_left hvs hv with ⟨_, _, hvar, _⟩
    exact hvar.carries

section FreeNames

/-- The wire names of some declared variables. -/
def Scope.NameOf (s : Scope) (F : String → Prop) (n : String) : Prop :=
  ∃ x T, F x ∧ s.varType? x = some T ∧ (n = x ∨ n = valueName x)

/-- Wire names of some variables, or of variables that are bound around. -/
def Scope.NameIn (s : Scope) (F : String → Prop) (Γ : List (String × Ty)) (n : String) : Prop :=
  s.NameOf F n ∨ ∃ x ∈ Γ.map (·.1), n = valueName x

theorem Term.Links.freeIn {N : String → Prop} {x : String} {link : Term} (h : Links x link)
    (hx : N x) (hvalue : N (valueName x)) : FreeIn N link := by
  rcases h.parts with ⟨f, e, v, l, hcs, hf, hhead, hcs', hv, hl, hcs''⟩
  have hlit : FreeIn N l := .of_head hl (by simp) (by simp) (by simp [hcs''])
  have heq : FreeIn N e := by
    refine .of_head hhead (by simp) (by simp) ?_
    simp [hcs', FreeIn.of_var hv hvalue, hlit]
  refine .of_head h.head (by simp) (by simp) ?_
  simp [hcs, FreeIn.of_var hf hx, heq]

/-- The free names of encoded expressions are wire names of the variables that
    occur in them. -/
theorem Encoding.upholds_freeIn (A : Term → Prop) (F : String → Prop) {c : Encoding}
    (hpair : ∀ x, F x → c.scope.varType? x = some .bool →
      Gives (c.linkedPair x) (VarTerms.PairOf A x)) :
    c.Upholds (Regime.ofPairs (VarTerms.PairOf A) fun _ => True).tandem (fun _ => True)
      (fun _ => True) (fun x _ T => F x ∧ c.scope.varType? x = some T) (fun _ _ => True)
      fun Γ _ _ => FreeIn (c.scope.NameIn F Γ) where
  error _ := trivial
  theory Γ := c.theory.upholds_freeIn _
  keep _ _ := trivial
  var _ := (Gives.leaves fun _ => trivial).copies
  bound hbound ht _ := .of_var ht.name? (.inr
    ⟨_, mem_map_of_mem (mem_reverse.mp (mem_of_lookup hbound)), rfl⟩)
  declared Γ {_ x _ T} hD := by
    have hvalue : c.scope.NameIn F Γ (valueName x) := Or.inl ⟨x, T, hD.1, hD.2, .inr rfl⟩
    refine ((yields_pairOf fun hT => hpair x hD.1 (hT ▸ hD.2)).mono fun _ p _ hp => ?_).beside
    rcases hp with ⟨hT, hp⟩ | ⟨hnone, hvar⟩
    · refine ⟨.of_var hp.term hvalue, fun f hf => ⟨hT, .of_var (hp.formula f hf) ?_⟩⟩
      exact .inl ⟨x, T, hD.1, hD.2, .inl rfl⟩
    · exact ⟨.of_var hvar.name? hvalue, by simp [hnone]⟩
  all {Γ _ vars vs b} hvs hb := by
    refine Leaves.copies ?_
    unfold Theory.all
    split
    · next hempty =>
      -- Without variables there is no quantifier.
      rw [List.isEmpty_iff.mp hempty, forall₂_nil_left_iff] at hvs
      rw [hvs, map_nil, append_nil] at hb
      exact leaves_pure hb
    · refine Gives.leaves fun s => ?_
      rcases gives_theory_make c.theory .all .formula (vs ++ [b]) s with ⟨hhead, hcs⟩
      refine .of_all (congrArg Head.op hhead) hcs fun n hn hnot => ?_
      rcases hb n hn with hn | ⟨x, hx, rfl⟩
      · exact .inl hn
      · rw [map_append, mem_append] at hx
        rcases hx with hx | hx
        · exact .inr ⟨x, hx, rfl⟩
        · -- A name that the quantifier binds is not free.
          rw [map_map] at hx
          rcases mem_map.mp hx with ⟨v, hv, rfl⟩
          rcases exists_of_forall₂_right hvs hv with ⟨t, ht, hvar, _⟩
          exact absurd (mem_filterMap.mpr ⟨t, ht, hvar.name?⟩) hnot

end FreeNames

end Vouch
