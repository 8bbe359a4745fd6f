import Vouch.Proofs.Term.Simultaneous

/-!
# Meaning of the Term Constructors

Constructors that build a node give the operator applied to the operands. The ones that
simplify may return an operand, so of these only two things can be said: when the result
holds, and that it is a truth value if the operands are.

## Main definitions

* `Term.Operator`: An operator applied to operands.
* `Term.Connective`: A formula that holds when a statement does.

## Theorems

* `Theory.builds_operator`: What constructors build.
* `Theory.builds_and`: What conjunction builds.
* `Theory.builds_all`: What quantification builds.
-/

namespace Vouch

open List

/-- A member of the stock that can be substituted in. -/
def Stock.Has (W : Stock) (t : Term) : Prop :=
  t ∈ W.terms ∧ t.Tidy

theorem Stock.Has.mono {W X : Stock} {t : Term} (h : W.Has t) (hWX : W ≤ X) : X.Has t :=
  ⟨hWX.1 h.1, h.2⟩

namespace Term

/-- The term is an operator applied to operands. -/
structure Operator (h : Head) (cs : List Term) (X : Stock) (r : Term) : Prop where
  has : X.Has r
  free : ∀ n, Free n r → ∃ c ∈ cs, Free n c
  eval : ∀ (I : Interp) (ρ : Assignment I.Value), r.eval I ρ = I.apply h (cs.map (Term.eval I · ρ))

/-- The term is a formula over some formulas that holds when the statement
    does. -/
structure Connective (ts : List Term) (P : (I : Interp) → Assignment I.Value → Prop) (X : Stock)
    (r : Term) : Prop where
  has : X.Has r
  free : ∀ n, Free n r → ∃ t ∈ ts, Free n t
  holds : ∀ (I : Interp) (ρ : Assignment I.Value), I.Holds (r.eval I ρ) ↔ P I ρ
  dom : ∀ (I : Interp) (ρ : Assignment I.Value), (∀ t ∈ ts, I.Dom .bool (t.eval I ρ)) →
    I.Dom .bool (r.eval I ρ)

variable {cs : List Term} {t : Term}

theorem Made.operator {h : Head} {W X : Stock} {r : Term} (hr : Made h cs X r)
    (hcs : ∀ c ∈ cs, W.Has c) (hvar : h.op ≠ .var) (hall : h.op ≠ .all) : Operator h cs X r := by
  obtain ⟨hmem, hhead, hchildren⟩ := hr
  have hop : r.op = h.op := by rw [op, hhead]
  have hname : r.name? = none := name?_of_op_ne (hop ▸ hvar)
  have hop' : r.op ≠ .all := hop ▸ hall
  refine ⟨⟨hmem, .of_operands hop' fun c hc => ?_⟩, fun n hn => ?_, fun I ρ => ?_⟩
  · exact (hcs c (hchildren ▸ hc)).2
  · rw [free_operand hname hop', hchildren] at hn
    exact hn
  · rw [eval_apply hname hop', hhead, hchildren]

theorem Operator.connective {h : Head} {ts : List Term} {X : Stock} {r : Term}
    {P : (I : Interp) → Assignment I.Value → Prop} (hr : Operator h cs X r) (hsub : cs ⊆ ts)
    (happly : ∀ (I : Interp) (ρ : Assignment I.Value),
      I.apply h (cs.map (Term.eval I · ρ)) = I.truth (P I ρ)) : Connective ts P X r := by
  refine ⟨hr.has, fun n hn => ?_, fun I ρ => ?_, fun I ρ _ => ?_⟩
  · rcases hr.free n hn with ⟨c, hc, hn⟩
    exact ⟨c, hsub hc, hn⟩
  · rw [hr.eval, happly, I.holds_truth]
  · rw [hr.eval, happly]
    exact I.dom_truth _

theorem eval_of_head_literal {b : Bool}
    (h : t.head = { op := .lit, sort := .formula, payload := some (.bool b) }) (I : Interp)
    (ρ : Assignment I.Value) : t.eval I ρ = I.bool b := by
  have hname : t.name? = none := by rw [name?, op, h]
  have hop : t.op ≠ .all := by simp [op, h]
  rw [eval_apply hname hop, h]
  rfl

theorem holds_of_isTrue (h : t.isTrue = true) (I : Interp) (ρ : Assignment I.Value) :
    I.Holds (t.eval I ρ) := by
  rw [eval_of_head_literal (b := true) (by simpa [isTrue] using h), I.holds_bool]

theorem not_holds_of_isFalse (h : t.isFalse = true) (I : Interp) (ρ : Assignment I.Value) :
    ¬ I.Holds (t.eval I ρ) := by
  rw [eval_of_head_literal (b := false) (by simpa [isFalse] using h), I.holds_bool]
  simp

end Term

open Term

section Nodes

variable {W : Stock}

theorem builds_literal (W : Stock) (sort : TermSort) (payload : Option Literal)
    (as : List Term) :
    Builds W (Term.make { op := .lit, sort, payload } [] as)
      (Operator { op := .lit, sort, payload } []) :=
  (builds_make (by simp) _ _).mono fun _ _ _ hr =>
    hr.operator (W := W) (by simp) (by simp) (by simp)

/-- A variable is a member that is nothing but its name. -/
structure Term.Variable (name : String) (sort : TermSort) (X : Stock) (r : Term) : Prop where
  has : X.Has r
  name? : r.name? = some name
  sort_eq : r.sort = sort

theorem Term.Made.variable {name : String} {sort : TermSort} {X : Stock} {r : Term}
    (hr : Made { op := .var, sort, payload := some (.name name) } [] X r) :
    Term.Variable name sort X r := by
  have hname : r.name? = some name := by rw [Term.name?, Term.op, Term.payload, hr.2.1]
  exact ⟨⟨hr.1, .of_leaf (by simp [op_of_name? hname]) hr.2.2⟩, hname, by rw [Term.sort, hr.2.1]⟩

theorem builds_var (W : Stock) (name : String) (sort : TermSort) :
    Builds W (Term.var name sort) (Term.Variable name sort) :=
  (builds_make (by simp) _ _).mono fun _ _ _ hr => hr.variable

end Nodes

namespace Theory

variable {th : Theory} {W : Stock}

/-- A node has the value of its operator at the values of its operands. -/
theorem builds_operator (hth : th.Advances) {cs : List Term} (hcs : ∀ c ∈ cs, W.Has c) {op : Op}
    (sort : TermSort) (hvar : op ≠ .var) (hall : op ≠ .all) :
    Builds W (th.make op sort cs) (Operator { op, sort } cs) :=
  (builds_make hth (fun c hc => (hcs c hc).1) op sort).mono fun _ _ _ hr =>
    hr.operator hcs hvar hall

theorem builds_formula (W : Stock) (value : Bool) (ts : List Term) :
    Builds W (Term.formula value) (Connective ts fun _ _ => value = true) := by
  refine (builds_literal W .formula (some (.bool value)) []).mono fun X r _ hr => ?_
  refine ⟨hr.has, fun n hn => ?_, fun I ρ => ?_, fun I ρ _ => ?_⟩
  · rcases hr.free n hn with ⟨c, hc, _⟩
    simp at hc
  · simp [hr.eval, Interp.apply, Interp.literal]
  · rw [hr.eval]
    exact ⟨value, rfl⟩

variable {ts vs : List Term}

theorem builds_and (hth : th.Advances) (hts : ∀ t ∈ ts, W.Has t) :
    Builds W (th.and ts) (Connective ts fun I ρ => ∀ t ∈ ts, I.Holds (t.eval I ρ)) := by
  have hsub : ts.filter (!·.isTrue) ⊆ ts := filter_sublist.subset
  -- Only the operands that are kept matter.
  have hkept : ∀ (I : Interp) (ρ : Assignment I.Value),
      (∀ t ∈ ts.filter (!·.isTrue), I.Holds (t.eval I ρ)) ↔ ∀ t ∈ ts, I.Holds (t.eval I ρ) := by
    refine fun I ρ => ⟨fun h t ht => ?_, fun h t ht => h t (hsub ht)⟩
    by_cases htrue : t.isTrue = true
    · exact holds_of_isTrue htrue I ρ
    · exact h t (mem_filter.mpr ⟨ht, by simp [htrue]⟩)
  unfold Theory.and
  split
  · next hnil =>
    refine (builds_formula W true ts).mono fun X r _ hr => ⟨hr.has, hr.free, fun I ρ => ?_, hr.dom⟩
    rw [hr.holds, ← hkept, hnil]
    simp
  · next t hone =>
    have ht : t ∈ ts := hsub (by simp [hone])
    refine leaves_pure ⟨hts t ht, fun n hn => ⟨t, ht, hn⟩, fun I ρ => ?_, fun I ρ h => h t ht⟩
    rw [← hkept, hone]
    simp
  · refine (builds_operator hth (fun t ht => hts t (hsub ht)) .formula (by simp) (by simp)).mono
      fun X r _ hr => hr.connective hsub fun I ρ => ?_
    rw [← hkept]
    simp only [Interp.apply, forall_mem_map]

theorem builds_or (hth : th.Advances) (hts : ∀ t ∈ ts, W.Has t) :
    Builds W (th.or ts) (Connective ts fun I ρ => ∃ t ∈ ts, I.Holds (t.eval I ρ)) := by
  have hsub : ts.filter (!·.isFalse) ⊆ ts := filter_sublist.subset
  -- An operand that holds is kept.
  have hkept : ∀ (I : Interp) (ρ : Assignment I.Value),
      (∃ t ∈ ts.filter (!·.isFalse), I.Holds (t.eval I ρ)) ↔ ∃ t ∈ ts, I.Holds (t.eval I ρ) := by
    refine fun I ρ => ⟨fun ⟨t, ht, h⟩ => ⟨t, hsub ht, h⟩, fun ⟨t, ht, h⟩ => ⟨t, ?_, h⟩⟩
    refine mem_filter.mpr ⟨ht, ?_⟩
    by_cases hfalse : t.isFalse = true
    · exact absurd h (not_holds_of_isFalse hfalse I ρ)
    · simp [hfalse]
  unfold Theory.or
  split
  · next hnil =>
    refine (builds_formula W false ts).mono fun X r _ hr => ⟨hr.has, hr.free, fun I ρ => ?_, hr.dom⟩
    rw [hr.holds, ← hkept, hnil]
    simp
  · next t hone =>
    have ht : t ∈ ts := hsub (by simp [hone])
    refine leaves_pure ⟨hts t ht, fun n hn => ⟨t, ht, hn⟩, fun I ρ => ?_, fun I ρ h => h t ht⟩
    rw [← hkept, hone]
    simp
  · refine (builds_operator hth (fun t ht => hts t (hsub ht)) .formula (by simp) (by simp)).mono
      fun X r _ hr => hr.connective hsub fun I ρ => ?_
    rw [← hkept]
    simp [Interp.apply]

theorem builds_implies (hth : th.Advances) {l r : Term} (hl : W.Has l) (hr : W.Has r) :
    Builds W (th.implies l r)
      (Connective [l, r] fun I ρ => I.Holds (l.eval I ρ) → I.Holds (r.eval I ρ)) := by
  unfold Theory.implies
  split
  · next h =>
    refine leaves_pure ⟨hr, fun n hn => ⟨r, by simp, hn⟩, fun I ρ => ?_, fun I ρ h => h r (by simp)⟩
    -- Either the premise is the constant, or the conclusion is.
    rcases Bool.or_eq_true_iff.mp h with h | h
    · exact ⟨fun hr _ => hr, fun hlr => hlr (holds_of_isTrue h I ρ)⟩
    · exact ⟨fun hr _ => hr, fun _ => holds_of_isTrue h I ρ⟩
  · refine (builds_operator hth (by simp [hl, hr]) .formula (by simp) (by simp)).mono
      fun X t _ ht => ht.connective (List.Subset.refl _) fun I ρ => ?_
    simp [Interp.apply]

theorem tidyBinders_of_plain {b r : Term} (hop : r.op = .all) (hcs : r.children = vs ++ [b])
    (hnames : ∀ v ∈ vs, ∃ x, PlainName x ∧ v.name? = some (valueName x)) : TidyBinders r := by
  have hdrop : r.children.dropLast = vs := by rw [hcs, dropLast_concat]
  have hspelled : ∀ n ∈ r.boundNames, ∃ x, PlainName x ∧ n = valueName x := by
    intro n hn
    rw [boundNames_of_op_all hop, hdrop] at hn
    rcases mem_filterMap.mp hn with ⟨v, hv, hvn⟩
    rcases hnames v hv with ⟨x, hx, hvx⟩
    rw [hvx, Option.some.injEq] at hvn
    exact ⟨x, hx, hvn.symm⟩
  refine ⟨⟨b, by simp [hcs]⟩, fun v hv => ?_, fun n hn => Or.inl (hspelled n hn),
    fun x k hx _ hk => ?_⟩
  · rcases hnames v (hdrop ▸ hv) with ⟨x, _, hvx⟩
    exact ⟨_, hvx⟩
  · -- A renamed binder is the value name of something that is not plain.
    rcases hspelled _ hk with ⟨y, hy, heq⟩
    rw [← valueName_renamedBinder] at heq
    exact plainName_ne_renamedBinder hy (valueName_inj heq).symm

/-- A quantifier over value names holds if its body does for all values. Without
    variables it is its body. -/
theorem builds_all (hth : th.Advances) {b : Term} (hvs : ∀ v ∈ vs, W.Has v)
    (hnames : ∀ v ∈ vs, ∃ x, PlainName x ∧ v.name? = some (valueName x)) (hb : W.Has b) :
    Builds W (th.all vs b) fun X r => X.Has r ∧
      (∀ n, Free n r → Free n b ∧ n ∉ vs.filterMap name?) ∧
      (∀ (I : Interp) (ρ : Assignment I.Value), I.Holds (r.eval I ρ) ↔
        I.ForAll (bindersOf vs) (fun ρ => I.Holds (b.eval I ρ)) ρ) ∧
      ∀ (I : Interp) (ρ : Assignment I.Value), (vs = [] → I.Dom .bool (b.eval I ρ)) →
        I.Dom .bool (r.eval I ρ) := by
  unfold Theory.all
  split
  · next hnil =>
    rw [List.isEmpty_iff.mp hnil]
    exact leaves_pure ⟨hb, fun n hn => ⟨hn, by simp⟩, fun I ρ => Iff.rfl, fun I ρ h => h rfl⟩
  · have hmem : ∀ c ∈ vs ++ [b], W.Has c := by
      intro c hc
      rcases mem_append.mp hc with hc | hc
      · exact hvs c hc
      · rw [mem_singleton.mp hc]
        exact hb
    refine (builds_make hth (fun c hc => (hmem c hc).1) .all .formula).mono fun X r _ hr => ?_
    have hop : r.op = .all := by rw [Term.op, hr.2.1]
    have hbody : r.children.getLast? = some b := by simp [hr.2.2]
    have hdrop : r.children.dropLast = vs := by rw [hr.2.2, dropLast_concat]
    have hbound : r.boundNames = vs.filterMap name? := by rw [boundNames_of_op_all hop, hdrop]
    have htidy := tidyBinders_of_plain hop hr.2.2 hnames
    refine ⟨⟨hr.1, .intro (fun c hc => (hmem c (hr.2.2 ▸ hc)).2) fun _ => htidy⟩,
      fun n hn => ?_, fun I ρ => ?_, fun I ρ _ => ?_⟩
    · rw [free_all hop hbody, hbound] at hn
      exact hn.symm
    · rw [eval_all hop hbody, I.holds_truth, binders, hdrop]
    · rw [eval_all hop hbody]
      exact I.dom_truth _

end Theory

end Vouch
