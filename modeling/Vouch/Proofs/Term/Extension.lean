import Vouch.Proofs.Term.Algebra
import Vouch.Proofs.Term.Definitions

/-!
# Definitions Extend an Interpretation in One Way

Whatever the other names stand for, there is one way to choose what the variables for
shared nodes stand for such that all definitions hold. The operators may mean anything.
A definition holds exactly if its variable has the value of its right side.

## Main definitions

* `Term.InOrder`: Definitions mention new variables that are defined before.
* `Algebra.Extends`: An assignment with values for more variables.

## Theorems

* `unsharing_keeps_values`: Removing sharing keeps the values of terms.
-/

namespace Vouch

open List

namespace Term

/-- The name that a definition is about, the one on its left side. -/
def defined? (d : Term) : Option String :=
  d.children.head?.bind name?

/-- The variables that are defined, with their sorts. -/
def definedVars (ds : List Term) : List (String × TermSort) :=
  bindersOf (ds.filterMap (·.children.head?))

/-- Each of the definitions is about a new variable, with a number from `N` on,
    that no earlier one is about, and on its right side it mentions only new
    variables that earlier ones are about. -/
def InOrder (N : Nat) (ds : List Term) : Prop :=
  ∀ ds₁ d ds₂, ds = ds₁ ++ d :: ds₂ → ∃ k v r, N ≤ k ∧ v.name? = some (sharedName k) ∧
    d.children = [v, r] ∧ (∀ e ∈ ds₁, e.defined? ≠ some (sharedName k)) ∧
    ∀ j, N ≤ j → Mentions (sharedName j) r → ∃ e ∈ ds₁, e.defined? = some (sharedName j)

variable {A B : List (Nat × Term)} {t r d : Term} {k N M : Nat}

theorem Defines.defined?_eq (h : Defines k r d) : d.defined? = some (sharedName k) := by
  rcases h.sides with ⟨v, hv, hsides⟩
  rw [defined?, hsides, head?_cons, Option.bind_some, hv.name?]

theorem Written.lt_or_mem_of_mentions (hw : Written A t r) (ht : ShareBelow N t)
    (hk : Mentions (sharedName k) r) : k < N ∨ ∃ u, (k, u) ∈ A := by
  have hnames : Everywhere (fun h => ∀ k sort, h = sharedHead k sort → k < N ∨ ∃ u, (k, u) ∈ A)
      r := by
    refine hw.everywhere (fun j u hj _ i _ heq => Or.inr ⟨u, ?_⟩)
      (Everywhere.mono ht fun _ h j sort heq => Or.inl (h j sort heq))
    rwa [← sharedHead_inj heq]
  rcases hnames.of_mentions hk with ⟨sort, h⟩
  exact h k sort rfl

theorem name?_of_isShareable (h : t.isShareable = true) : t.name? = none :=
  name?_of_op_ne fun hop => by simp [isShareable, hop, Op.isLeaf] at h

section Named

variable {P : Term → Prop} {ds : List Term}

theorem Named.pairwise (h : Named P N ds A M) : A.Pairwise fun e e' => e.1 < e'.1 := by
  induction h with
  | none => exact .nil
  | define h hle _ _ _ _ _ ih =>
    refine pairwise_append.mpr ⟨ih, pairwise_singleton _ _, fun e he e' he' => ?_⟩
    have hlt := (h.of_mem he).2.1
    rw [mem_singleton.mp he']
    exact hlt.trans_le hle

theorem Named.nodup_defined? (h : Named P N ds A M) : (ds.map defined?).Nodup := by
  have heq : ds.map defined? = A.map fun e => some (sharedName e.1) := by
    refine (Reading.map_eq_of_forall₂ (h.forall₂.imp fun d e he => ?_)).symm
    rcases he with ⟨r, _, hd⟩
    exact hd.defined?_eq.symm
  rw [heq]
  refine Pairwise.map _ (fun e e' hlt hname => ?_) h.pairwise
  have hnum := sharedName_inj (Option.some.inj hname)
  omega

theorem Named.definedVars_eq (h : Named P N ds A M) :
    definedVars ds = A.map fun e => (sharedName e.1, e.2.sort) := by
  induction h with
  | none => rfl
  | @define ds A M M' k t r d _ _ _ _ _ hr hd ih =>
    rcases hd.sides with ⟨v, hv, hsides⟩
    have hsort : v.sort = t.sort := (congrArg Head.sort hv.head).trans hr.sort_eq
    have hlast : definedVars [d] = [(sharedName k, t.sort)] := by
      simp [definedVars, bindersOf, hsides, hv.name?, hsort]
    rw [map_append, ← ih, map_singleton, ← hlast]
    simp only [definedVars, bindersOf, filterMap_append]

theorem Named.inOrder (h : Named P N ds A M) (hP : ∀ t, P t → ShareBelow N t) : InOrder N ds := by
  induction h with
  | none =>
    intro ds₁ d ds₂ heq
    simp at heq
  | @define ds A M M' k t r d h hle _ ht _ hr hd ih =>
    intro ds₁ e ds₂ heq
    rcases eq_nil_or_concat ds₂ with rfl | ⟨ds₃, x, rfl⟩
    · -- The last definition: all others come before it.
      rcases append_inj' heq rfl with ⟨rfl, hde⟩
      rw [List.cons.injEq] at hde
      rcases hd.sides with ⟨v, hv, hsides⟩
      refine ⟨k, v, r, h.le.trans hle, hv.name?, hde.1 ▸ hsides, fun e he hname => ?_,
        fun j hj hmentions => ?_⟩
      · rcases exists_of_forall₂_left h.forall₂ he with ⟨a, ha, q, _, hq⟩
        rw [hq.defined?_eq, Option.some.injEq] at hname
        have hlt := (h.of_mem ha).2.1
        have hak := sharedName_inj hname
        omega
      · rcases hr.written.lt_or_mem_of_mentions (hP t ht) hmentions with hlt | ⟨u, hu⟩
        · omega
        · rcases exists_of_forall₂_right h.forall₂ hu with ⟨e, he, q, _, hq⟩
          exact ⟨e, he, hq.defined?_eq⟩
    · have hsplit : ds ++ [d] = (ds₁ ++ e :: ds₃) ++ [x] := by simpa using heq
      exact ih ds₁ e ds₃ (append_inj' hsplit rfl).1

end Named

end Term

open Term

namespace Algebra

variable {A : Algebra} {ρ ρ' : Assignment A.Value} {table : List (Nat × Term)} {t r d : Term}
  {k N M : Nat}

/-- The second assignment is the first with values for the variables. The value
    of a formula is that of a statement. -/
structure Extends (A : Algebra) (vars : List (String × TermSort)) (ρ ρ' : Assignment A.Value) :
    Prop where
  other : ∀ n, n ∉ vars.map (·.1) → ρ' n = ρ n
  formula : ∀ n, (n, .formula) ∈ vars → ∃ p, ρ' n = A.truth p

theorem exists_truth (hA : A.Logical) (hname : t.name? = none) (hsort : t.sort = .formula)
    (ρ : Assignment A.Value) : ∃ p, A.eval t ρ = A.truth p := by
  by_cases hop : t.op = .all
  · cases hb : t.children.getLast? with
    | none => exact ⟨_, eval_all_of_nil hop (getLast?_eq_none_iff.mp hb) ρ⟩
    | some b => exact ⟨_, eval_all hop hb ρ⟩
  · rw [eval_apply hname hop]
    exact hA.formula _ _ hsort

theorem truth_inj_iff {p q : Prop} : A.truth p = A.truth q ↔ (p ↔ q) := by
  constructor
  · intro h
    rw [← A.holds_truth p, h, A.holds_truth]
  · intro h
    rw [propext h]

theorem holds_defines (hA : A.Logical) (hd : Defines k r d) (hr : r.name? = none)
    (hk : r.sort = .formula → ∃ p, ρ (sharedName k) = A.truth p) :
    A.Holds (A.eval d ρ) ↔ ρ (sharedName k) = A.eval r ρ := by
  rcases hd.sides with ⟨v, hv, hsides⟩
  by_cases hsort : r.sort = .formula
  · have hhead : d.head = { op := .iff, sort := .formula } := by
      simp [hd.head, hsort, TermSort.isFormula]
    have hop : d.op = .iff := congrArg Head.op hhead
    rcases hk hsort with ⟨p, hp⟩
    rcases exists_truth hA hr hsort ρ with ⟨q, hq⟩
    rw [eval_apply (by rw [name?, hop]) (by simp [hop]), hhead, hsides, map_cons,
      map_singleton, hA.iff, A.holds_truth, eval_var hv.name?, hp, hq, A.holds_truth,
      A.holds_truth, truth_inj_iff]
  · have hhead : d.head = { op := .eq, sort := .formula } := by
      simp [hd.head, hsort, TermSort.isFormula]
    have hop : d.op = .eq := congrArg Head.op hhead
    rw [eval_apply (by rw [name?, hop]) (by simp [hop]), hhead, hsides, map_cons,
      map_singleton, hA.eq, A.holds_truth, eval_var hv.name?]

theorem eval_of_written (hρ : ∀ k u, (k, u) ∈ table → ρ (sharedName k) = A.eval u ρ)
    (hw : Written table t r) : A.eval r ρ = A.eval t ρ := by
  induction hw with
  | name hk hv =>
    rw [eval_var hv.name?]
    exact hρ _ _ hk
  | @node t r hhead hall hlen _ ih =>
    by_cases hop : t.op = .all
    · rw [hall hop]
    · have hname' : r.name? = t.name? := name?_eq_of_head hhead
      have hop' : r.op ≠ .all := (congrArg Head.op hhead).trans_ne hop
      cases hname : t.name? with
      | some n => rw [eval_var (hname'.trans hname), eval_var hname]
      | none =>
        rw [eval_apply (hname'.trans hname) hop', eval_apply hname hop, hhead]
        congr 1
        refine Reading.map_eq_of_forall₂ (forall₂_iff_zip.mpr ⟨hlen hop, ?_⟩)
        exact fun {c e} hce => ih hop (c, e) hce

section Named

variable {P : Term → Prop} {ds : List Term}

theorem holds_iff_of_named (hA : A.Logical) (h : Named P N ds table M)
    (hform : ∀ k u, (k, u) ∈ table → u.sort = .formula → ∃ p, ρ (sharedName k) = A.truth p) :
    (∀ d ∈ ds, A.Holds (A.eval d ρ)) ↔
      ∀ k u, (k, u) ∈ table → ρ (sharedName k) = A.eval u ρ := by
  induction h with
  | none => simp
  | @define ds table M M' k t r d h _ _ _ hshare hr hd ih =>
    have hname : r.name? = none :=
      name?_of_isShareable ((Reading.isShareable_of_head hr.head).trans hshare)
    have hlast : (k, t) ∈ table ++ [(k, t)] := by simp
    have hdef := holds_defines (ρ := ρ) hA hd hname
      fun hsort => hform k t hlast (hr.sort_eq.symm.trans hsort)
    have hold := ih fun j u hj => hform j u (mem_append_left _ hj)
    constructor
    · -- The earlier variables stand for their nodes, so the last right side has the
      -- value of its node.
      intro hds
      have hstand := hold.mp fun e he => hds e (mem_append_left _ he)
      intro j u hj
      rcases mem_append.mp hj with hj | hj
      · exact hstand j u hj
      · rw [mem_singleton, Prod.mk.injEq] at hj
        rw [hj.1, hj.2, ← eval_of_written hstand hr.written]
        exact hdef.mp (hds d (by simp))
    · intro hstand e he
      have hbefore : ∀ j u, (j, u) ∈ table → ρ (sharedName j) = A.eval u ρ :=
        fun j u hj => hstand j u (mem_append_left _ hj)
      rcases mem_append.mp he with he | he
      · exact hold.mpr hbefore e he
      · rw [mem_singleton.mp he]
        refine hdef.mpr ?_
        rw [eval_of_written hbefore hr.written]
        exact hstand k t hlast

theorem Extends.eval_eq (hρ : A.Extends (definedVars ds) ρ ρ') (h : Named P N ds table M)
    (ht : ShareBelow N t) : A.eval t ρ' = A.eval t ρ := by
  refine eval_congr t fun n hn => hρ.other n fun hmem => ?_
  rw [h.definedVars_eq, map_map] at hmem
  rcases mem_map.mp hmem with ⟨e, he, rfl⟩
  have hlt := ht.lt_of_mentions hn.mentions
  have hle := (h.of_mem he).1
  omega

theorem exists_values {V : Type} (f : Term → V) (ρ : Assignment V) {table : List (Nat × Term)}
    (h : table.Pairwise fun e e' => e.1 < e'.1) :
    ∃ ρ' : Assignment V, (∀ n, n ∉ table.map (fun e => sharedName e.1) → ρ' n = ρ n) ∧
      ∀ e ∈ table, ρ' (sharedName e.1) = f e.2 := by
  induction h with
  | nil => exact ⟨ρ, fun _ _ => rfl, by simp⟩
  | @cons a table hlt _ ih =>
    rcases ih with ⟨ρ', hother, hvalues⟩
    refine ⟨Function.update ρ' (sharedName a.1) (f a.2), fun n hn => ?_, fun e he => ?_⟩
    · rw [map_cons, mem_cons, not_or] at hn
      rw [Function.update_of_ne hn.1]
      exact hother n hn.2
    · rcases mem_cons.mp he with rfl | he
      · rw [Function.update_self]
      · have hne : sharedName e.1 ≠ sharedName a.1 := by
          intro heq
          have hlt := hlt e he
          have hnum := sharedName_inj heq
          omega
        rw [Function.update_of_ne hne]
        exact hvalues e he

theorem Extends.holds_iff (hρ : A.Extends (definedVars ds) ρ ρ') (hA : A.Logical)
    (h : Named P N ds table M) (hP : ∀ t, P t → ShareBelow N t) :
    (∀ d ∈ ds, A.Holds (A.eval d ρ')) ↔ ∀ e ∈ table, ρ' (sharedName e.1) = A.eval e.2 ρ := by
  have hform : ∀ k u, (k, u) ∈ table → u.sort = .formula → ∃ p, ρ' (sharedName k) = A.truth p := by
    intro k u hk hsort
    refine hρ.formula _ ?_
    rw [h.definedVars_eq]
    exact mem_map.mpr ⟨(k, u), hk, by rw [hsort]⟩
  rw [holds_iff_of_named hA h hform]
  have hsame : ∀ e ∈ table, A.eval e.2 ρ' = A.eval e.2 ρ :=
    fun e he => hρ.eval_eq h (hP _ (h.of_mem he).2.2.1)
  constructor
  · intro hstand e he
    rw [← hsame e he]
    exact hstand e.1 e.2 he
  · intro hvalues k u hk
    rw [hsame (k, u) hk]
    exact hvalues (k, u) hk

theorem existsUnique_extends (hA : A.Logical) (h : Named P N ds table M)
    (hP : ∀ t, P t → ShareBelow N t) (ρ : Assignment A.Value) :
    ∃! ρ', A.Extends (definedVars ds) ρ ρ' ∧ ∀ d ∈ ds, A.Holds (A.eval d ρ') := by
  have hvars : (definedVars ds).map (·.1) = table.map fun e => sharedName e.1 := by
    rw [h.definedVars_eq, map_map]
    rfl
  rcases exists_values (A.eval · ρ) ρ h.pairwise with ⟨ρ', hother, hvalues⟩
  have hext : A.Extends (definedVars ds) ρ ρ' := by
    refine ⟨by rwa [hvars], fun n hn => ?_⟩
    rw [h.definedVars_eq] at hn
    rcases mem_map.mp hn with ⟨e, he, heq⟩
    rw [Prod.mk.injEq] at heq
    rw [← heq.1, hvalues e he]
    exact exists_truth hA (name?_of_isShareable (h.of_mem he).2.2.2) heq.2 ρ
  refine ⟨ρ', ⟨hext, (hext.holds_iff hA h hP).mpr hvalues⟩, fun τ hτ => ?_⟩
  have hvalues' := (hτ.1.holds_iff hA h hP).mp hτ.2
  ext n
  by_cases hn : n ∈ table.map fun e => sharedName e.1
  · rcases mem_map.mp hn with ⟨e, he, rfl⟩
    rw [hvalues' e he, hvalues e he]
  · rw [hτ.1.other n (by rwa [hvars]), hother n hn]

theorem Extends.eval_of_written (hρ : A.Extends (definedVars ds) ρ ρ') (hA : A.Logical)
    (h : Named P N ds table M) (hP : ∀ t, P t → ShareBelow N t)
    (hds : ∀ d ∈ ds, A.Holds (A.eval d ρ')) (ht : ShareBelow N t) (hw : Written table t r) :
    A.eval r ρ' = A.eval t ρ := by
  have hvalues := (hρ.holds_iff hA h hP).mp hds
  rw [← hρ.eval_eq h ht]
  refine Algebra.eval_of_written (fun k u hk => ?_) hw
  rw [hρ.eval_eq h (hP _ (h.of_mem hk).2.2.1)]
  exact hvalues (k, u) hk

theorem valid_iff_of_written (hA : A.Logical) (h : Named P N ds table M)
    (hP : ∀ t, P t → ShareBelow N t) (ht : ShareBelow N t) (hw : Written table t r) :
    (∀ ρ, A.Holds (A.eval t ρ)) ↔ ∀ ρ ρ', A.Extends (definedVars ds) ρ ρ' →
      (∀ d ∈ ds, A.Holds (A.eval d ρ')) → A.Holds (A.eval r ρ') := by
  constructor
  · intro hvalid ρ ρ' hρ hds
    rw [hρ.eval_of_written hA h hP hds ht hw]
    exact hvalid ρ
  · -- Every assignment has an extension that satisfies the definitions.
    intro hvalid ρ
    rcases existsUnique_extends hA h hP ρ with ⟨ρ', ⟨hρ, hds⟩, _⟩
    rw [← hρ.eval_of_written hA h hP hds ht hw]
    exact hvalid ρ ρ' hρ hds

end Named

end Algebra

/-- Removing sharing changes no value. The definitions come in order and are
    about new variables. Whatever the other names stand for, in any algebra in
    which equations, equivalences and formulas mean what they should, there is
    one way to extend this to the new variables such that all definitions hold.
    Then each term that is left has the value of the term it was made from, so the
    one is valid if and only if the other is valid under the definitions. -/
theorem unsharing_keeps_values {th : Theory} (hth : th.Advances) {W : Stock} {s : Supply}
    (hs : W.Fits s) {ts : List Term} (hts : ∀ t ∈ ts, t ∈ W.terms)
    (hnew : ∀ t ∈ ts, ∀ k, s.nextName ≤ k → ¬ Mentions (sharedName k) t) :
    let u := ((th.unshareAll ts).run s).1
    InOrder s.nextName u.definitions ∧
    ∀ A : Algebra, A.Logical →
      (∀ ρ, ∃! ρ', A.Extends (definedVars u.definitions) ρ ρ' ∧
        ∀ d ∈ u.definitions, A.Holds (A.eval d ρ')) ∧
      (∀ ρ ρ', A.Extends (definedVars u.definitions) ρ ρ' →
        (∀ d ∈ u.definitions, A.Holds (A.eval d ρ')) →
        Forall₂ (fun t r => A.eval r ρ' = A.eval t ρ) ts u.terms) ∧
      Forall₂ (fun t r => (∀ ρ, A.Holds (A.eval t ρ)) ↔
        ∀ ρ ρ', A.Extends (definedVars u.definitions) ρ ρ' →
          (∀ d ∈ u.definitions, A.Holds (A.eval d ρ')) → A.Holds (A.eval r ρ')) ts u.terms := by
  have hroots : ∀ t ∈ ts, t ∈ W.terms ∧ ShareBelow W.names t := fun t ht =>
    ⟨hts t ht, shareBelow_of_not_mentions (hs.names_eq ▸ hnew t ht)⟩
  rcases Theory.builds_unshareAll hth (fun t ht _ c hc => Everywhere.operand ht hc) hroots s hs
    with ⟨X, _, _, table, hnaming, _, hwritten⟩
  have hnamed := hnaming.named
  have hbelow : ∀ t, ShareBelow W.names t → ShareBelow W.names t := fun _ h => h
  refine ⟨hs.names_eq ▸ hnamed.inOrder hbelow, fun A hA => ?_⟩
  have hpairs : Forall₂ (fun t r => ShareBelow W.names t ∧ Written table t r) ts
      ((th.unshareAll ts).run s).1.terms :=
    forall₂_iff_zip.mpr ⟨hwritten.length_eq, fun {t r} htr =>
      ⟨(hroots t (of_mem_zip htr).1).2, (forall₂_iff_zip.mp hwritten).2 htr⟩⟩
  refine ⟨Algebra.existsUnique_extends hA hnamed hbelow, fun ρ ρ' hρ hds => ?_, ?_⟩
  · exact hpairs.imp fun t r h => hρ.eval_of_written hA hnamed hbelow hds h.1 h.2
  · exact hpairs.imp fun t r h => Algebra.valid_iff_of_written hA hnamed hbelow h.1 h.2

/-- The nodes of a formula with shared parts, one of them a quantifier and one both
    below it and outside. A variable has the name that the variable for a shared
    node had earlier. The formula is the last of the nodes. -/
def nestedNodes : List Term :=
  let x := .node ⟨0, 0⟩ { op := .var, sort := .int, payload := some (.name "share$$0") } [] []
  let sum := .node ⟨0, 1⟩ { op := .add, sort := .int } [x, x] []
  let equation := .node ⟨0, 2⟩ { op := .eq, sort := .formula } [sum, sum] []
  let both := .node ⟨0, 3⟩ { op := .and, sort := .formula } [equation, equation] []
  let all := .node ⟨0, 4⟩ { op := .all, sort := .formula } [x, equation] []
  [x, sum, equation, both, all, .node ⟨0, 5⟩ { op := .or, sort := .formula } [both, all, all] []]

/-- With all nodes as roots four of them are named, and there is one way to choose
    what their variables stand for. -/
theorem unsharing_keeps_values_nested :
    let u := ((Theory.standard.unshareAll nestedNodes).run { nextNode := 6, nextName := 1 }).1
    u.definitions.filterMap defined? = [1, 2, 3, 4].map sharedName ∧
    InOrder 1 u.definitions ∧
    (∀ ρ, ∃! ρ', Interp.trees.unsorted.Extends (definedVars u.definitions) ρ ρ' ∧
      ∀ d ∈ u.definitions, Interp.trees.unsorted.Holds (Interp.trees.unsorted.eval d ρ')) ∧
    ∀ ρ ρ', Interp.trees.unsorted.Extends (definedVars u.definitions) ρ ρ' →
      (∀ d ∈ u.definitions, Interp.trees.unsorted.Holds (Interp.trees.unsorted.eval d ρ')) →
      Forall₂ (fun t r => Interp.trees.unsorted.eval r ρ' = Interp.trees.unsorted.eval t ρ)
        nestedNodes u.terms := by
  let W := Stock.ofList nestedNodes 1 (by simp [nestedNodes, Term.children]) (by decide)
  have hfits : W.Fits { nextNode := 6, nextName := 1 } :=
    Stock.fits_ofList (by decide) rfl
  have hnames : ∀ t ∈ nestedNodes, ∀ n ∈ t.allNames, n = sharedName 0 := by decide +kernel
  have hnew : ∀ t ∈ nestedNodes, ∀ k, 1 ≤ k → ¬ Mentions (sharedName k) t := by
    intro t ht k hk hmentions
    have hzero := hnames t ht _ (mem_allNames_of_mentions (W := W) ht hmentions)
    have hnum := sharedName_inj hzero
    omega
  have h := unsharing_keeps_values Theory.advances_standard hfits (fun t ht => ht) hnew
  have hvalues := h.2 Interp.trees.unsorted Interp.trees.logical_unsorted
  exact ⟨by decide +kernel, h.1, hvalues.1, hvalues.2.1⟩

end Vouch
