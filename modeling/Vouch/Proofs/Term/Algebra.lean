import Vouch.Proofs.Term.Meaning

/-!
# Meaning with All Operators Left Open

Some steps on terms do not look at what the operators mean. They move subterms about, so
what they keep is kept under any reading of the operators, on terms that need not even
be well sorted.

## Main definitions

* `Algebra`: Values, with operators that may be anything.
* `Algebra.eval`: The value of a term.
* `Algebra.Logical`: Equations and equivalences mean what they say.

## Theorems

* `Algebra.forAll_carry`: Quantifiers agree if the names that their bodies look at
  correspond to each other and range over the same values.
* `Algebra.eval_congr`: Only free names matter.
* `Interp.eval_algebra`: Standard interpretations are algebras.
-/

namespace Vouch

open List

/-- What the last binder of a name says about it. -/
def lastBinder? {S : Type} : List (String × S) → String → Option S
  | [], _ => none
  | (m, s) :: bs, n => (lastBinder? bs n).or (if n = m then some s else none)

variable {n : String}

theorem lastBinder?_eq_none {S : Type} {bs : List (String × S)} :
    lastBinder? bs n = none ↔ n ∉ bs.map (·.1) := by
  induction bs with
  | nil => simp [lastBinder?]
  | cons b bs ih => simp [lastBinder?, ih, and_comm]

theorem mem_of_lastBinder? {S : Type} {s : S} {bs : List (String × S)}
    (h : lastBinder? bs n = some s) : (n, s) ∈ bs := by
  induction bs with
  | nil => cases h
  | cons b bs ih =>
    rcases Option.or_eq_some_iff.mp h with h | ⟨_, h⟩
    · exact mem_cons_of_mem _ (ih h)
    · split at h
      · next hn => exact mem_cons.mpr (Or.inl (Prod.ext hn (Option.some.inj h).symm))
      · cases h

theorem lastBinder?_head {S : Type} {s : S} {bs : List (String × S)}
    (h : ∀ s', (n, s') ∈ bs → s' = s) : lastBinder? ((n, s) :: bs) n = some s := by
  rw [lastBinder?, if_pos rfl]
  cases hlast : lastBinder? bs n with
  | none => rfl
  | some s' => rw [h s' (mem_of_lastBinder? hlast), Option.some_or]

theorem lastBinder?_tail {S : Type} {m : String} {bs bs' : List (String × S)}
    (hn : n ∈ bs.map (·.1)) (h : lastBinder? bs' m = lastBinder? bs n) (b b' : String × S) :
    lastBinder? (b' :: bs') m = lastBinder? (b :: bs) n := by
  rcases Option.ne_none_iff_exists'.mp fun hnone => lastBinder?_eq_none.mp hnone hn with ⟨s, hs⟩
  rw [lastBinder?, lastBinder?, h, hs, Option.some_or, Option.some_or]

/-- Values, with operators that may be anything. -/
structure Algebra where
  Value : Type
  /-- The values that a bound variable of the sort ranges over. -/
  Dom : TermSort → Value → Prop
  /-- Whether a value counts as true. -/
  Holds : Value → Prop
  /-- The value of a statement. -/
  truth : Prop → Value
  holds_truth : ∀ p, Holds (truth p) ↔ p
  /-- The value of a node from the values of its operands. -/
  apply : Head → List Value → Value

namespace Algebra

variable (A : Algebra)

/-- The statement holds for all values of the names, each from its sort. -/
def ForAll : List (String × TermSort) → (Assignment A.Value → Prop) → Assignment A.Value → Prop
  | [], P, ρ => P ρ
  | (n, s) :: bs, P, ρ => ∀ v, A.Dom s v → ForAll bs P (Function.update ρ n v)

variable {P : Assignment A.Value → Prop} {t : Term}

theorem forAll_congr {Q : Assignment A.Value → Prop} (N : String → Prop) :
    ∀ {bs : List (String × TermSort)} {ρ τ : Assignment A.Value},
      (∀ n, N n → n ∉ bs.map (·.1) → ρ n = τ n) →
      (∀ ρ' τ' : Assignment A.Value, (∀ n, N n → ρ' n = τ' n) → (P ρ' ↔ Q τ')) →
      (A.ForAll bs P ρ ↔ A.ForAll bs Q τ) := by
  intro bs
  induction bs with
  | nil =>
    intro ρ τ hagree hbody
    exact hbody ρ τ fun n hn => hagree n hn (by simp)
  | cons b bs ih =>
    intro ρ τ hagree hbody
    unfold ForAll
    refine forall_congr' fun v => imp_congr_right fun _ => ih (fun n hn hnot => ?_) hbody
    by_cases hnb : n = b.1
    · rw [hnb, Function.update_self, Function.update_self]
    · rw [Function.update_of_ne hnb, Function.update_of_ne hnb]
      exact hagree n hn (by simpa [hnb] using hnot)

/-- The second assignment differs from the first at the bound names only, and
    gives them values of their sorts. -/
def Varies (bs : List (String × TermSort)) (ρ τ : Assignment A.Value) : Prop :=
  ∀ n, (lastBinder? bs n).elim (τ n = ρ n) (A.Dom · (τ n))

theorem Varies.eq_of_not_mem {bs : List (String × TermSort)} {ρ τ : Assignment A.Value}
    (h : A.Varies bs ρ τ) {n : String} (hn : n ∉ bs.map (·.1)) : τ n = ρ n := by
  have hval := h n
  rwa [lastBinder?_eq_none.mpr hn] at hval

/-- A quantifier speaks about all assignments that differ from the given one at
    its names. No sort may be empty, since of a name that is bound twice one
    value is not seen. -/
theorem forAll_iff (hA : ∀ s, ∃ v, A.Dom s v) :
    ∀ {bs : List (String × TermSort)} {ρ : Assignment A.Value},
      A.ForAll bs P ρ ↔ ∀ τ, A.Varies bs ρ τ → P τ := by
  intro bs
  induction bs with
  | nil =>
    refine fun {ρ} => ⟨fun h τ hτ => ?_, fun h => h ρ fun _ => rfl⟩
    have heq : τ = ρ := funext hτ
    exact heq ▸ h
  | cons b bs ih =>
    obtain ⟨m, s⟩ := b
    refine fun {ρ} => ⟨fun h τ hτ => ?_, fun h v hv => ih.mpr fun τ hτ => h τ fun n => ?_⟩
    · -- The first name already has the value it will have in the end, if it is not bound again.
      have hfirst : ∃ v, A.Dom s v ∧ (lastBinder? bs m = none → τ m = v) := by
        have hm := hτ m
        rw [lastBinder?, if_pos rfl] at hm
        cases hlast : lastBinder? bs m with
        | none =>
          rw [hlast] at hm
          exact ⟨τ m, hm, fun _ => rfl⟩
        | some _ => exact (hA s).imp fun v hv => ⟨hv, by simp⟩
      rcases hfirst with ⟨v, hv, hm⟩
      refine ih.mp (h v hv) τ fun n => ?_
      have hn := hτ n
      rw [lastBinder?] at hn
      cases hlast : lastBinder? bs n with
      | some _ => rwa [hlast] at hn
      | none =>
        by_cases hnm : n = m
        · subst hnm
          have hself := Function.update_self n v ρ
          exact (hm hlast).trans hself.symm
        · rw [hlast, if_neg hnm] at hn
          exact hn.trans (Function.update_of_ne hnm ..).symm
    · have hn := hτ n
      rw [lastBinder?]
      cases hlast : lastBinder? bs n with
      | some _ => rwa [hlast] at hn
      | none =>
        rw [hlast] at hn
        by_cases hnm : n = m
        · subst hnm
          rw [if_pos rfl]
          exact hn.trans (Function.update_self ..) ▸ hv
        · rw [if_neg hnm]
          exact hn.trans (Function.update_of_ne hnm ..)

section Carry

variable {bs bs' : List (String × TermSort)} {ρ ρ' : Assignment A.Value}
  {R : String → String → Prop}

open Classical in
theorem Varies.exists_carried (hA : ∀ s, ∃ v, A.Dom s v)
    (hdom : ∀ n m, R n m → ∃ s s', lastBinder? bs n = some s ∧ lastBinder? bs' m = some s' ∧
      ∀ v, A.Dom s' v → A.Dom s v) (hR : ∀ n m m', R n m → R n m' → m = m')
    (ρ : Assignment A.Value) {τ' : Assignment A.Value} (hτ' : A.Varies bs' ρ' τ') :
    ∃ τ, A.Varies bs ρ τ ∧ ∀ n m, R n m → τ n = τ' m := by
  -- A name that stands for none gets any value of its sort.
  have hvalue : ∀ n, ∃ v, (lastBinder? bs n).elim (v = ρ n) (A.Dom · v) ∧
      ∀ m, R n m → v = τ' m := by
    intro n
    by_cases hn : ∃ m, R n m
    · rcases hn with ⟨m, hnm⟩
      rcases hdom n m hnm with ⟨s, s', hs, hs', hv⟩
      have hm := hτ' m
      rw [hs'] at hm
      refine ⟨τ' m, ?_, fun m' hnm' => congrArg τ' (hR n m m' hnm hnm')⟩
      rw [hs]
      exact hv _ hm
    · have hnone : ∀ (v : A.Value) (m : String), R n m → v = τ' m :=
        fun v m hnm => absurd ⟨m, hnm⟩ hn
      cases lastBinder? bs n with
      | none => exact ⟨ρ n, rfl, hnone _⟩
      | some s => exact (hA s).imp fun v hv => ⟨hv, hnone v⟩
  choose τ hτ hcarried using hvalue
  exact ⟨τ, hτ, hcarried⟩

/-- Assignments are carried over along names that correspond, in both directions. -/
theorem forAll_carry (hA : ∀ s, ∃ v, A.Dom s v) {P P' : Assignment A.Value → Prop}
    (hdom : ∀ n m, R n m → ∃ s s', lastBinder? bs n = some s ∧ lastBinder? bs' m = some s' ∧
      ∀ v, A.Dom s v ↔ A.Dom s' v) (hR : ∀ n m m', R n m → R n m' → m = m')
    (hR' : ∀ n n' m, R n m → R n' m → n = n')
    (hbody : ∀ τ τ', A.Varies bs ρ τ → A.Varies bs' ρ' τ' → (∀ n m, R n m → τ n = τ' m) →
      (P τ ↔ P' τ')) : A.ForAll bs P ρ ↔ A.ForAll bs' P' ρ' := by
  rw [A.forAll_iff hA, A.forAll_iff hA]
  constructor
  · intro h τ' hτ'
    have hdom' : ∀ n m, R n m → ∃ s s', lastBinder? bs n = some s ∧ lastBinder? bs' m = some s' ∧
        ∀ v, A.Dom s' v → A.Dom s v := by
      intro n m hnm
      rcases hdom n m hnm with ⟨s, s', hs, hs', hv⟩
      exact ⟨s, s', hs, hs', fun v => (hv v).mpr⟩
    rcases hτ'.exists_carried A hA hdom' hR ρ with ⟨τ, hτ, hcarried⟩
    exact (hbody τ τ' hτ hτ' hcarried).mp (h τ hτ)
  · intro h τ hτ
    have hdom' : ∀ m n, R n m → ∃ s' s, lastBinder? bs' m = some s' ∧ lastBinder? bs n = some s ∧
        ∀ v, A.Dom s v → A.Dom s' v := by
      intro m n hnm
      rcases hdom n m hnm with ⟨s, s', hs, hs', hv⟩
      exact ⟨s', s, hs', hs, fun v => (hv v).mp⟩
    rcases hτ.exists_carried A hA (R := fun m n => R n m) hdom'
      (fun m n n' => hR' n n' m) ρ' with ⟨τ', hτ', hcarried⟩
    exact (hbody τ τ' hτ hτ' fun n m hnm => (hcarried m n hnm).symm).mpr (h τ' hτ')

end Carry

mutual

/-- The value of a term under an assignment. -/
def eval : Term → Assignment A.Value → A.Value
  | .node id h cs as, ρ =>
    match (Term.node id h cs as).name? with
    | some n => ρ n
    | none =>
      if h.op = .all then
        A.truth (A.ForAll (Term.node id h cs as).binders (fun ρ => A.Holds (evalLast cs ρ)) ρ)
      else A.apply h (evalAll cs ρ)

/-- The values of a list of operands. -/
def evalAll : List Term → Assignment A.Value → List A.Value
  | [], _ => []
  | t :: ts, ρ => eval t ρ :: evalAll ts ρ

/-- The value of the last of a list of operands, the body of a quantifier. -/
def evalLast : List Term → Assignment A.Value → A.Value
  | [], _ => A.truth True
  | t :: ts, ρ => if ts.isEmpty then eval t ρ else evalLast ts ρ

end

variable {A}

theorem evalAll_eq_map (ts : List Term) (ρ : Assignment A.Value) :
    A.evalAll ts ρ = ts.map (A.eval · ρ) := by
  induction ts with
  | nil => rw [evalAll, map_nil]
  | cons t ts ih => rw [evalAll, ih, map_cons]

theorem evalLast_of_getLast? {ts : List Term} {b : Term} (h : ts.getLast? = some b)
    (ρ : Assignment A.Value) : A.evalLast ts ρ = A.eval b ρ := by
  induction ts with
  | nil => simp at h
  | cons t ts ih =>
    rw [evalLast]
    cases ts with
    | nil =>
      have htb : t = b := by simpa using h
      rw [htb]
      rfl
    | cons u us => exact ih (by simpa using h)

theorem eval_var {n : String} (h : t.name? = some n) (ρ : Assignment A.Value) :
    A.eval t ρ = ρ n := by
  obtain ⟨id, hd, cs, as⟩ := t
  rw [eval, h]

theorem eval_all {b : Term} (h : t.op = .all) (hb : t.children.getLast? = some b)
    (ρ : Assignment A.Value) :
    A.eval t ρ = A.truth (A.ForAll t.binders (fun ρ => A.Holds (A.eval b ρ)) ρ) := by
  have hname := Term.name?_of_op_all h
  obtain ⟨id, hd, cs, as⟩ := t
  have hop : hd.op = .all := h
  have hbody : (fun ρ => A.Holds (A.evalLast cs ρ)) = fun ρ => A.Holds (A.eval b ρ) :=
    funext fun τ => congrArg A.Holds (evalLast_of_getLast? hb τ)
  rw [eval, hname]
  simp only [hop, if_true, hbody]

theorem eval_all_of_nil (h : t.op = .all) (hcs : t.children = []) (ρ : Assignment A.Value) :
    A.eval t ρ = A.truth True := by
  have hname := Term.name?_of_op_all h
  obtain ⟨id, hd, cs, as⟩ := t
  have hop : hd.op = .all := h
  have hnil : cs = [] := hcs
  subst hnil
  rw [eval, hname]
  simp only [hop, if_true, Term.binders, Term.bindersOf, Term.children, dropLast_nil,
    filterMap_nil, ForAll, evalLast, A.holds_truth]

theorem eval_apply (hname : t.name? = none) (hop : t.op ≠ .all) (ρ : Assignment A.Value) :
    A.eval t ρ = A.apply t.head (t.children.map (A.eval · ρ)) := by
  obtain ⟨id, hd, cs, as⟩ := t
  have hne : ¬ hd.op = .all := hop
  rw [eval, hname, ← evalAll_eq_map]
  simp only [hne, if_false]
  rfl

theorem eval_congr (t : Term) : ∀ {ρ τ : Assignment A.Value},
    (∀ n, Term.Free n t → ρ n = τ n) → A.eval t ρ = A.eval t τ := by
  induction t using Term.induction with
  | step t ih =>
    intro ρ τ hagree
    cases hname : t.name? with
    | some n =>
      rw [eval_var hname, eval_var hname]
      exact hagree n (.var hname)
    | none =>
      by_cases hop : t.op = .all
      · cases hb : t.children.getLast? with
        | none =>
          have hnil := getLast?_eq_none_iff.mp hb
          rw [eval_all_of_nil hop hnil, eval_all_of_nil hop hnil]
        | some b =>
          rw [eval_all hop hb, eval_all hop hb]
          congr 1
          refine propext (A.forAll_congr (Term.Free · b) (fun n hn hnot => ?_)
            fun ρ' τ' hbody => ?_)
          · rw [← Term.boundNames_eq hop] at hnot
            exact hagree n (.body hop hb hnot hn)
          · rw [ih b (mem_of_getLast? hb) hbody]
      · rw [eval_apply hname hop, eval_apply hname hop]
        congr 1
        refine map_congr_left fun c hc => ih c hc fun n hn => ?_
        exact hagree n (.operand hname hop hc hn)

/-- Equations, equivalences and formulas mean what they should. -/
structure Logical (A : Algebra) : Prop where
  eq : ∀ v w, A.apply { op := .eq, sort := .formula } [v, w] = A.truth (v = w)
  iff : ∀ v w, A.apply { op := .iff, sort := .formula } [v, w] = A.truth (A.Holds v ↔ A.Holds w)
  /-- A formula has the value of a statement. -/
  formula : ∀ (h : Head) vs, h.sort = .formula → ∃ p, A.apply h vs = A.truth p

end Algebra

namespace Interp

variable (I : Interp)

/-- The algebra of a standard interpretation. -/
noncomputable abbrev algebra : Algebra where
  Value := I.Value
  Dom := I.Dom
  Holds := I.Holds
  truth := I.truth
  holds_truth := I.holds_truth
  apply := I.apply

theorem exists_dom : ∀ s, ∃ v, I.Dom s v
  | .formula => ⟨I.bool true, _, rfl⟩
  | .bool => ⟨I.bool true, _, rfl⟩
  | .int => ⟨I.int 0, _, rfl⟩
  | .value => ⟨I.bool true, trivial⟩

theorem forAll_algebra (P : Assignment I.Value → Prop) : ∀ (bs : List (String × TermSort))
    (ρ : Assignment I.Value), I.algebra.ForAll bs P ρ ↔ I.ForAll bs P ρ := by
  intro bs
  induction bs with
  | nil => exact fun _ => Iff.rfl
  | cons b bs ih => exact fun ρ => forall_congr' fun v => imp_congr_right fun _ => ih _

mutual

theorem eval_algebra : ∀ (t : Term) (ρ : Assignment I.Value), I.algebra.eval t ρ = t.eval I ρ
  | .node id h cs as, ρ => by
    have hlast : I.algebra.evalLast cs = Term.evalLast I cs := funext (evalLast_algebra cs)
    rw [Algebra.eval, Term.eval, evalAll_algebra cs, hlast]
    cases (Term.node id h cs as).name? with
    | some n => rfl
    | none =>
      refine ite_congr rfl (fun _ => ?_) fun _ => rfl
      exact congrArg I.truth (propext (I.forAll_algebra _ _ ρ))

theorem evalAll_algebra : ∀ (ts : List Term) (ρ : Assignment I.Value),
    I.algebra.evalAll ts ρ = Term.evalAll I ts ρ
  | [], ρ => by rw [Algebra.evalAll, Term.evalAll]
  | t :: ts, ρ => by rw [Algebra.evalAll, Term.evalAll, eval_algebra t, evalAll_algebra ts]

theorem evalLast_algebra : ∀ (ts : List Term) (ρ : Assignment I.Value),
    I.algebra.evalLast ts ρ = Term.evalLast I ts ρ
  | [], ρ => by
    rw [Algebra.evalLast, Term.evalLast]
    exact congrArg I.bool (by simp)
  | t :: ts, ρ => by
    rw [Algebra.evalLast, Term.evalLast, eval_algebra t, evalLast_algebra ts]

end

/-- The same operators in one universe: all bound variables range over all
    values. What is called a formula only counts by whether it holds, also where
    a term is not well sorted. -/
noncomputable def unsorted : Algebra :=
  { I.algebra with
    Dom := fun _ _ => True
    apply := fun h vs =>
      if h.sort = .formula then I.truth (I.Holds (I.apply h vs)) else I.apply h vs }

theorem apply_unsorted {h : Head} (hsort : h.sort = .formula) (vs : List I.Value) :
    I.unsorted.apply h vs = I.truth (I.Holds (I.apply h vs)) :=
  if_pos hsort

theorem logical_unsorted : I.unsorted.Logical where
  eq v w :=
    (I.apply_unsorted rfl [v, w]).trans (congrArg I.truth (propext (I.holds_truth (v = w))))
  iff v w := (I.apply_unsorted rfl [v, w]).trans
    (congrArg I.truth (propext (I.holds_truth (I.Holds v ↔ I.Holds w))))
  formula h vs hsort := ⟨I.Holds (I.apply h vs), I.apply_unsorted hsort vs⟩

end Interp

/-! ### In a standard interpretation -/

namespace Term

variable {I : Interp} {t : Term}

theorem eval_var {n : String} (h : t.name? = some n) (ρ : Assignment I.Value) :
    t.eval I ρ = ρ n := by
  rw [← I.eval_algebra, Algebra.eval_var h]

theorem eval_all {b : Term} (h : t.op = .all) (hb : t.children.getLast? = some b)
    (ρ : Assignment I.Value) :
    t.eval I ρ = I.truth (I.ForAll t.binders (fun ρ => I.Holds (b.eval I ρ)) ρ) := by
  have hbody : I.algebra.eval b = b.eval I := funext (I.eval_algebra b)
  rw [← I.eval_algebra, ← hbody, ← propext (I.forAll_algebra _ _ ρ), Algebra.eval_all h hb]

theorem eval_apply (hname : t.name? = none) (hop : t.op ≠ .all) (ρ : Assignment I.Value) :
    t.eval I ρ = I.apply t.head (t.children.map (eval I · ρ)) := by
  have hvalue : (eval I · ρ) = (I.algebra.eval · ρ) := funext fun c => (I.eval_algebra c ρ).symm
  rw [← I.eval_algebra, hvalue, Algebra.eval_apply hname hop]

theorem eval_congr (t : Term) {ρ τ : Assignment I.Value} (h : ∀ n, Free n t → ρ n = τ n) :
    t.eval I ρ = t.eval I τ := by
  rw [← I.eval_algebra, ← I.eval_algebra]
  exact Algebra.eval_congr t h

end Term

end Vouch
