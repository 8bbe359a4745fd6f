import Vouch.Proofs.Term.Algebra
import Vouch.Proofs.Term.Tidiness
import Vouch.Proofs.Term.Traversal

/-!
# Substitution Below Any Binders

The value of a substituted term is the value of the term when every replaced name stands
for the value of its replacement. In one universe this needs no assumption on how
binders are spelled.

## Main definitions

* `Subst.Reads`: What a name reads.
* `Subst.Rebinds`: How names are read below a quantifier.
* `Term.Substituted`: A term is another with a substitution made.

## Theorems

* `Term.Substituted.eval_after`: Its value is that of the other elsewhere.
* `substitution_is_simultaneous`: All names are replaced at once.
-/

namespace Vouch

open List NameMap

namespace Term

variable {vs : List Term}

theorem lastBinder?_bindersOf_head {v : Term} {n : String} (hv : v.name? = some n)
    (h : n ∉ vs.filterMap name?) : lastBinder? (bindersOf (v :: vs)) n = some v.sort := by
  rw [bindersOf_cons_some hv]
  refine lastBinder?_head fun s hs => absurd ?_ h
  rw [← map_fst_bindersOf]
  exact mem_map_of_mem hs

theorem lastBinder?_bindersOf_tail {vs' : List Term} {n m : String} (hn : n ∈ vs.filterMap name?)
    (h : lastBinder? (bindersOf vs') m = lastBinder? (bindersOf vs) n) {u v : Term}
    (huv : u.name?.isSome = v.name?.isSome) :
    lastBinder? (bindersOf (u :: vs')) m = lastBinder? (bindersOf (v :: vs)) n := by
  rw [← map_fst_bindersOf] at hn
  cases hv : v.name? with
  | none =>
    rw [hv, Option.isSome_none, Option.isSome_eq_false_iff, Option.isNone_iff_eq_none] at huv
    rw [bindersOf_cons_none huv, bindersOf_cons_none hv, h]
  | some l =>
    rw [hv] at huv
    rcases Option.isSome_iff_exists.mp huv with ⟨k, hu⟩
    rw [bindersOf_cons_some hu, bindersOf_cons_some hv]
    exact lastBinder?_tail hn h _ _

theorem forall₂_concat {R : Term → Term → Prop} {as : List Term} {a : Term} {bs : List Term}
    (h : Forall₂ R (as ++ [a]) bs) :
    ∃ bs' b, bs = bs' ++ [b] ∧ Forall₂ R as bs' ∧ R a b := by
  induction as generalizing bs with
  | nil =>
    cases h with
    | cons hab htail =>
      cases htail
      exact ⟨[], _, rfl, .nil, hab⟩
  | cons c as ih =>
    cases h with
    | cons hcb htail =>
      rcases ih htail with ⟨bs', b, rfl, hall, hab⟩
      exact ⟨_ :: bs', b, rfl, .cons hcb hall, hab⟩

end Term

namespace Subst

variable {A : Algebra} {σ σ' : Subst}

/-- The values of names when each replaced name stands for the value of its
    replacement. -/
def valuation (A : Algebra) (σ : Subst) (ρ : Assignment A.Value) : Assignment A.Value :=
  fun n => ((σ.find? n).map (A.eval · ρ)).getD (ρ n)

/-- The second name is free in what stands for the first. -/
def Reads (σ : Subst) (n l : String) : Prop :=
  (σ.find? n = none ∧ l = n) ∨ ∃ q, σ.find? n = some q ∧ Term.Free l q

variable {n m : String} {vs : List Term}

theorem valuation_of_none (h : σ.find? n = none) (ρ : Assignment A.Value) :
    σ.valuation A ρ n = ρ n := by
  rw [valuation, h, Option.map_none, Option.getD_none]

theorem valuation_of_some {q : Term} (h : σ.find? n = some q) (ρ : Assignment A.Value) :
    σ.valuation A ρ n = A.eval q ρ := by
  rw [valuation, h, Option.map_some, Option.getD_some]

theorem valuation_congr {ρ τ : Assignment A.Value} (hfind : σ.find? n = σ'.find? n)
    (h : ∀ l, σ.Reads n l → ρ l = τ l) : σ.valuation A ρ n = σ'.valuation A τ n := by
  cases hn : σ.find? n with
  | none =>
    rw [valuation_of_none hn, valuation_of_none (hfind ▸ hn)]
    exact h n (.inl ⟨hn, rfl⟩)
  | some q =>
    rw [valuation_of_some hn, valuation_of_some (hfind ▸ hn)]
    exact Algebra.eval_congr q fun l hl => h l (.inr ⟨q, hn, hl⟩)

theorem valuation_of_isEmpty (h : σ.isEmpty) (ρ : Assignment A.Value) : σ.valuation A ρ = ρ := by
  ext n
  exact valuation_of_none (find?_of_isEmpty h n) ρ

theorem Reads.congr_find? {l : String} (h : σ.Reads n l) (hfind : σ.find? n = σ'.find? n) :
    σ'.Reads n l := by
  unfold Reads at h ⊢
  rwa [← hfind]

/-- All that stands for the first name is the second. -/
def Renames (σ : Subst) (n m : String) : Prop :=
  (σ.find? n = none ∧ m = n) ∨ ∃ u, σ.find? n = some u ∧ u.name? = some m

theorem Renames.valuation (h : σ.Renames n m) (ρ : Assignment A.Value) :
    σ.valuation A ρ n = ρ m := by
  rcases h with ⟨hn, rfl⟩ | ⟨u, hn, hu⟩
  · exact valuation_of_none hn ρ
  · rw [valuation_of_some hn, Algebra.eval_var hu]

theorem Renames.eq_of_reads {l : String} (h : σ.Renames n m) (hl : σ.Reads n l) : l = m := by
  rcases h with ⟨hn, rfl⟩ | ⟨u, hn, hu⟩
  · rcases hl with ⟨_, rfl⟩ | ⟨q, hq, _⟩
    · rfl
    · simp [hn] at hq
  · rcases hl with ⟨hnone, _⟩ | ⟨q, hq, hfree⟩
    · simp [hn] at hnone
    · rw [hn, Option.some.injEq] at hq
      rw [← hq] at hfree
      exact (Term.free_var hu).mp hfree

theorem Renames.reads (h : σ.Renames n m) : σ.Reads n m := by
  rcases h with h | ⟨u, hn, hu⟩
  · exact .inl h
  · exact .inr ⟨u, hn, .var hu⟩

/-- A quantifier that binds `ns` over the body was made one that binds `ns'`, and
    `inner` is what has to be substituted in the body for it. -/
structure Rebinds (σ inner : Subst) (ns ns' : List String) (b : Term) : Prop where
  bound : ∀ n ∈ ns, Term.Free n b → ∃ m ∈ ns', inner.Renames n m
  apart : ∀ n ∈ ns, ∀ n' ∈ ns, Term.Free n b → Term.Free n' b → ∀ m, inner.Renames n m →
    inner.Renames n' m → n = n'
  other : ∀ n, n ∉ ns → inner.find? n = σ.find? n
  clear : ∀ n, n ∉ ns → Term.Free n b → ∀ l, σ.Reads n l → l ∉ ns'

namespace Rebinds

variable {inner : Subst} {ns ns' : List String} {b : Term}

theorem valuation_eq (h : Rebinds σ inner ns ns' b) {ρ ρ' : Assignment A.Value}
    (hρ : ∀ l, l ∉ ns' → ρ' l = ρ l) {n : String} (hn : n ∉ ns) (hfree : Term.Free n b) :
    σ.valuation A ρ n = inner.valuation A ρ' n :=
  valuation_congr (h.other n hn).symm fun l hl => (hρ l (h.clear n hn hfree l hl)).symm

end Rebinds

theorem name?_of_mem_cons {v : Term} (h : n ∈ (v :: vs).filterMap Term.name?)
    (htail : n ∉ vs.filterMap Term.name?) : v.name? = some n := by
  rcases mem_filterMap.mp h with ⟨w, hw, hwn⟩
  rcases mem_cons.mp hw with rfl | hw
  · exact hwn
  · exact absurd (mem_filterMap.mpr ⟨w, hw, hwn⟩) htail

namespace Renaming

variable {inc taken : List String} {vs vs' : List Term}

theorem cases_of_renames (h : Renaming inc taken vs σ vs' σ') {n m : String}
    (hn : n ∈ vs.filterMap Term.name?) (hnone : σ.find? n = none) (hnm : σ'.Renames n m) :
    (n ∉ inc ∧ m = n) ∨ (n ∈ inc ∧ m ∉ taken ∧ ∃ k, m = renamedBinder n k) := by
  by_cases hin : n ∈ inc
  · rcases h.find?_of_incoming hin hn with ⟨u, k, hfind, hu, _, hnew⟩
    have hm := hnm.eq_of_reads (.inr ⟨u, hfind, .var hu⟩)
    exact .inr ⟨hin, hm ▸ hnew, k, hm.symm⟩
  · have hkept : σ'.find? n = none := (h.find?_of_not_incoming hin).trans hnone
    exact .inl ⟨hin, (hnm.eq_of_reads (.inl ⟨hkept, rfl⟩)).symm⟩

/-- A name has the same sort before and after renaming, if it occurs in the body and
    no other binder has a new name of it. -/
theorem lastBinder?_of_renames (h : Renaming inc taken vs σ vs' σ') : ∀ {n m : String},
    n ∈ taken → n ∈ vs.filterMap Term.name? → (n ∉ inc → σ.find? n = none) →
    (n ∈ inc → ∀ k, renamedBinder n k ∉ vs.filterMap Term.name?) → σ'.Renames n m →
    lastBinder? (Term.bindersOf vs') m = lastBinder? (Term.bindersOf vs) n := by
  induction h with
  | nil => exact fun _ hn => absurd hn not_mem_nil
  | @keep taken σ _ v vs vs' hnot hrest ih =>
    intro n m htaken hn hnone hapart hnm
    by_cases htail : n ∈ vs.filterMap Term.name?
    · have htail' := ih htaken htail hnone
        (fun hin k hk => hapart hin k (mem_filterMap_cons hk)) hnm
      exact Term.lastBinder?_bindersOf_tail htail htail' rfl
    · have hv := name?_of_mem_cons hn htail
      have hkept : σ.find? n = none := hnone (hnot n hv)
      obtain rfl : n = m :=
        hnm.eq_of_reads (.inl ⟨(hrest.find?_of_not_mem htail).trans hkept, rfl⟩)
      rw [Term.lastBinder?_bindersOf_head hv htail,
        Term.lastBinder?_bindersOf_head hv fun hn' => ?_]
      -- A new name is not taken.
      rcases hrest.names hn' with ⟨hn', _⟩ | ⟨_, _, _, _, _, hnew⟩
      · exact htail hn'
      · exact hnew htaken
  | @rename taken σ _ v u vs vs' l k hv hin hk hu hsort _ hrest ih =>
    intro n m htaken hn hnone hapart hnm
    by_cases htail : n ∈ vs.filterMap Term.name?
    · have hnone' : n ∉ inc → (σ.insert l u).find? n = none := by
        intro hn'
        rw [find?_insert, if_neg (ne_of_mem_of_not_mem hin hn').symm]
        exact hnone hn'
      have htail' := ih (mem_cons_of_mem _ htaken) htail hnone'
        (fun hin' j hj => hapart hin' j (mem_filterMap_cons hj)) hnm
      exact Term.lastBinder?_bindersOf_tail htail htail' (by rw [hu, hv]; rfl)
    · obtain rfl : l = n := by
        have hvn := name?_of_mem_cons hn htail
        rwa [hv, Option.some.injEq] at hvn
      have hfind := hrest.find?_of_not_mem htail
      rw [find?_insert, if_pos rfl] at hfind
      obtain rfl : renamedBinder l k = m := hnm.eq_of_reads (.inr ⟨u, hfind, .var hu⟩)
      rw [Term.lastBinder?_bindersOf_head hv htail,
        Term.lastBinder?_bindersOf_head hu fun hk' => ?_, hsort]
      rcases hrest.names hk' with ⟨hk', _⟩ | ⟨_, _, _, _, _, hnew⟩
      · exact hapart hin k (mem_filterMap_cons hk')
      · exact hnew (by simp)

end Renaming

/-- Renaming the binders that capture is enough, whatever else is bound: new
    names are not among the names of the body. -/
theorem Rebound.rebinds {inc taken : List String} {outer inner : Subst} {t b r b' : Term}
    {us : List Term} (h : Rebound σ inc taken outer inner t b vs us r b') :
    Rebinds σ inner t.boundNames r.boundNames b := by
  have hren := h.renamed
  have hin := h.hidden
  have hout := h.other
  rw [h.boundNames_result]
  rw [Term.boundNames_of_op_all h.op] at hin hout ⊢
  refine ⟨fun n hn _ => ?_, fun n hn n' hn' hfree hfree' m hnm hnm' => ?_,
    fun n hn => (hren.find?_of_not_mem hn).trans (hout n hn), fun n hn hfree l hl hmem => ?_⟩
  · by_cases hni : n ∈ inc
    · rcases hren.find?_of_incoming hni hn with ⟨u, k, hfind, hu, hmem, _⟩
      exact ⟨_, hmem, .inr ⟨u, hfind, hu⟩⟩
    · exact ⟨n, hren.kept hn hni, .inl ⟨(hren.find?_of_not_incoming hni).trans (hin n hn), rfl⟩⟩
  · -- A new name is no name of the body, so it is none that was kept, and two new names
    -- are the same only if they were made for the same name.
    have hused : ∀ l, Term.Free l b → l ∈ taken := fun l hl => h.taken l (.inl hl.mentions)
    rcases hren.cases_of_renames hn (hin n hn) hnm with ⟨_, hm⟩ | ⟨_, hnew, k, hm⟩
    · rcases hren.cases_of_renames hn' (hin n' hn') hnm' with ⟨_, hm'⟩ | ⟨_, hnew, _⟩
      · rw [← hm, hm']
      · exact absurd (hused n hfree) (hm ▸ hnew)
    · rcases hren.cases_of_renames hn' (hin n' hn') hnm' with ⟨_, hm'⟩ | ⟨_, _, k', hm'⟩
      · exact absurd (hused n' hfree') (hm' ▸ hnew)
      · exact (renamedBinder_inj (hm.symm.trans hm')).1
  · -- A name read from outside is a name of the body or an incoming one.
    rcases hl with ⟨_, rfl⟩ | ⟨q, hq, hlq⟩
    · rcases hren.names hmem with ⟨hbound, _⟩ | ⟨_, _, _, _, _, hnew⟩
      · exact hn hbound
      · exact hnew (h.taken l (.inl hfree.mentions))
    · have hli : l ∈ inc := (h.incoming l).mpr ⟨q, mem_values_of_find? hq, hlq⟩
      rcases hren.names hmem with ⟨_, hnot⟩ | ⟨_, _, _, _, _, hnew⟩
      · exact hnot hli
      · exact hnew (h.taken l (.inr hli))

/-- The substitution keeps meanings in the algebra: bound variables range over
    everything there, or binders are spelled well. -/
def Suits (A : Algebra) (σ : Subst) (t : Term) : Prop :=
  (∀ s v, A.Dom s v) ∨ (t.Tidy ∧ σ.Clear t)

theorem Suits.operand {t c : Term} (h : σ.Suits A t) (hc : c ∈ t.children) : σ.Suits A c :=
  h.imp_right fun h => ⟨h.1.operand hc, h.2.operand hc⟩

end Subst

namespace Term

open Subst

/-- The second term is the first with the substitution made. -/
structure Substituted (σ : Subst) (t r : Term) : Prop where
  eval : ∀ A : Algebra, (∀ s, ∃ v, A.Dom s v) → σ.Suits A t → ∀ ρ,
    A.eval r ρ = A.eval t (σ.valuation A ρ)
  free : ∀ l, Free l r ↔ ∃ n, Free n t ∧ σ.Reads n l
  tidy : Tidy t → σ.Clear t → (∀ q ∈ σ.values, Tidy q) → Tidy r
  /-- A node that is not itself replaced stays a node of its kind. -/
  head : (∀ n, t.name? = some n → σ.find? n = none) → r.head = t.head

namespace Substituted

variable {σ : Subst} {t r : Term}

theorem refl (h : σ.isEmpty) (t : Term) : Substituted σ t t := by
  refine ⟨fun A _ _ ρ => by rw [valuation_of_isEmpty h], fun l => ?_, fun h _ _ => h, fun _ => rfl⟩
  have hnone := find?_of_isEmpty h
  constructor
  · intro hl
    exact ⟨l, hl, .inl ⟨hnone l, rfl⟩⟩
  · rintro ⟨n, hn, ⟨_, rfl⟩ | ⟨q, hq, _⟩⟩
    · exact hn
    · simp [hnone n] at hq

theorem of_replaced {n : String} (hn : t.name? = some n) (hr : σ.find? n = some r) :
    Substituted σ t r := by
  refine ⟨fun A _ _ ρ => ?_, fun l => ?_, fun _ _ h => h r (mem_values_of_find? hr),
    fun h => ?_⟩
  · rw [Algebra.eval_var hn, valuation_of_some hr]
  · constructor
    · intro hl
      exact ⟨n, .var hn, .inr ⟨r, hr, hl⟩⟩
    · rintro ⟨m, hm, hl⟩
      rw [(free_var hn).mp hm] at hl
      rcases hl with ⟨hnone, _⟩ | ⟨q, hq, hl⟩
      · simp [hr] at hnone
      · rw [hr, Option.some.injEq] at hq
        rwa [hq]
  · simp [h n hn] at hr

variable {rs ts : List Term}

theorem tidy_operands (h : Forall₂ (Substituted σ) ts rs) (htidy : ∀ c ∈ ts, Tidy c)
    (hclear : ∀ c ∈ ts, σ.Clear c) (hσ : ∀ q ∈ σ.values, Tidy q) : ∀ c ∈ rs, Tidy c := by
  intro c' hc'
  rcases exists_of_forall₂_right h hc' with ⟨c, hc, hsub⟩
  exact hsub.tidy (htidy c hc) (hclear c hc) hσ

theorem of_var {n : String} (hn : t.name? = some n) (hnone : σ.find? n = none)
    (hhead : r.head = t.head) (hcs : Forall₂ (Substituted σ) t.children r.children) :
    Substituted σ t r := by
  have hname : r.name? = some n := (name?_eq_of_head hhead).trans hn
  have hself : σ.Renames n n := Or.inl ⟨hnone, rfl⟩
  refine ⟨fun A _ _ ρ => ?_, fun l => ?_, fun htidy hclear hσ => ?_, fun _ => hhead⟩
  · rw [Algebra.eval_var hname, Algebra.eval_var hn, hself.valuation]
  · rw [free_var hname]
    constructor
    · intro hl
      exact ⟨n, .var hn, hl ▸ hself.reads⟩
    · rintro ⟨m, hm, hl⟩
      rw [(free_var hn).mp hm] at hl
      exact hself.eq_of_reads hl
  · exact .of_operands (by simp [op_of_name? hname])
      (tidy_operands hcs (fun _ => htidy.operand) (fun _ => hclear.operand) hσ)

theorem map_eval {A : Algebra} (hA : ∀ s, ∃ v, A.Dom s v) (h : Forall₂ (Substituted σ) ts rs)
    (hσ : ∀ c ∈ ts, σ.Suits A c) (ρ : Assignment A.Value) :
    rs.map (A.eval · ρ) = ts.map (A.eval · (σ.valuation A ρ)) := by
  induction h with
  | nil => rfl
  | cons hts _ ih =>
    rw [map_cons, map_cons, ih (forall_mem_cons.mp hσ).2,
      hts.eval A hA (hσ _ mem_cons_self)]

theorem of_operands (hname : t.name? = none) (hop : t.op ≠ .all) (hhead : r.head = t.head)
    (hcs : Forall₂ (Substituted σ) t.children r.children) : Substituted σ t r := by
  have hname' : r.name? = none := (name?_eq_of_head hhead).trans hname
  have hop' : r.op ≠ .all := (congrArg Head.op hhead).trans_ne hop
  refine ⟨fun A hA hsuits ρ => ?_, fun l => ?_, fun htidy hclear hσ => ?_, fun _ => hhead⟩
  · rw [Algebra.eval_apply hname' hop', Algebra.eval_apply hname hop, hhead,
      map_eval hA hcs fun _ => hsuits.operand]
  · rw [free_operand hname' hop']
    constructor
    · rintro ⟨c', hc', hl⟩
      rcases exists_of_forall₂_right hcs hc' with ⟨c, hc, hsub⟩
      rcases (hsub.free l).mp hl with ⟨n, hn, hread⟩
      exact ⟨n, .operand hname hop hc hn, hread⟩
    · rintro ⟨n, hn, hread⟩
      rcases (free_operand hname hop).mp hn with ⟨c, hc, hn⟩
      rcases exists_of_forall₂_left hcs hc with ⟨c', hc', hsub⟩
      exact ⟨c', hc', (hsub.free l).mpr ⟨n, hn, hread⟩⟩
  · exact .of_operands hop'
      (tidy_operands hcs (fun _ => htidy.operand) (fun _ => hclear.operand) hσ)

theorem of_empty (hop : t.op = .all) (hcs : t.children = []) (hhead : r.head = t.head)
    (hcs' : r.children = []) : Substituted σ t r := by
  have hop' : r.op = .all := (congrArg Head.op hhead).trans hop
  -- Its names would be those of a body, and there is none.
  have hfree : ∀ {u : Term} {n : String}, u.op = .all → u.children = [] → ¬ Free n u := by
    intro u n hu hnil hn
    cases hn with
    | var h => simp [name?_of_op_all hu] at h
    | operand _ h => exact h hu
    | body _ hb => simp [hnil] at hb
  refine ⟨fun A _ _ ρ => ?_, fun l => ?_, fun htidy _ _ => ?_, fun _ => hhead⟩
  · rw [Algebra.eval_all_of_nil hop' hcs', Algebra.eval_all_of_nil hop hcs]
  · constructor
    · exact fun hl => absurd hl (hfree hop' hcs')
    · rintro ⟨n, hn, _⟩
      exact absurd hn (hfree hop hcs)
  · rcases (htidy.binders hop).body with ⟨b, hb⟩
    simp [hcs] at hb

section Quantifier

variable {inc taken : List String} {outer inner : Subst} {b b' : Term} {vs us : List Term}

theorem dom_of_renames (h : Rebound σ inc taken outer inner t b vs us r b') {A : Algebra}
    (hsuits : σ.Suits A t) {n m : String} (hn : n ∈ t.boundNames) (hfree : Free n b)
    (hnm : inner.Renames n m) : ∃ s s', lastBinder? r.binders m = some s ∧
      lastBinder? t.binders n = some s' ∧ ∀ v, A.Dom s v ↔ A.Dom s' v := by
  have hbinder : ∀ {u : Term} {l : String}, u.op = .all → l ∈ u.boundNames →
      ∃ s, lastBinder? u.binders l = some s := by
    intro u l hu hl
    rw [boundNames_eq hu] at hl
    exact Option.ne_none_iff_exists'.mp fun hnone => lastBinder?_eq_none.mp hnone hl
  rcases h.rebinds.bound n hn hfree with ⟨m', hm, hnm'⟩
  rw [hnm.eq_of_reads hnm'.reads] at hm
  rcases hbinder h.op_result hm with ⟨s, hs⟩
  rcases hbinder h.op hn with ⟨s', hs'⟩
  refine ⟨s, s', hs, hs', fun v => ?_⟩
  rcases hsuits with hfull | ⟨htidy, hclear⟩
  · exact iff_of_true (hfull s v) (hfull s' v)
  · have hnames := boundNames_of_op_all h.op
    have hsort := h.renamed.lastBinder?_of_renames (h.taken n (.inl hfree.mentions))
      (hnames ▸ hn) (fun _ => h.hidden n hn) (h.apart htidy hclear (hnames ▸ hn)) hnm
    rw [← h.binders_result, hs, ← binders, hs', Option.some.injEq] at hsort
    rw [hsort]

theorem eval_quantifier (h : Rebound σ inc taken outer inner t b vs us r b')
    (hbody : Substituted inner b b') {A : Algebra} (hA : ∀ s, ∃ v, A.Dom s v)
    (hsuits : σ.Suits A t) (ρ : Assignment A.Value) :
    A.eval r ρ = A.eval t (σ.valuation A ρ) := by
  have hnames := h.rebinds
  have hinner : inner.Suits A b := hsuits.imp_right fun htidy =>
    ⟨htidy.1.operand (mem_of_getLast? h.body), h.clear htidy.2⟩
  rw [Algebra.eval_all h.op_result h.body_result, Algebra.eval_all h.op h.body]
  refine congrArg A.truth (propext (A.forAll_carry hA
    (R := fun m n => n ∈ t.boundNames ∧ Free n b ∧ inner.Renames n m)
    (fun m n hR => dom_of_renames h hsuits hR.1 hR.2.1 hR.2.2)
    (fun m n n' hR hR' => hnames.apart n hR.1 n' hR'.1 hR.2.1 hR'.2.1 m hR.2.2 hR'.2.2)
    (fun m m' n hR hR' => (hR'.2.2.eq_of_reads hR.2.2.reads)) fun τ τ' hτ hτ' hread => ?_))
  rw [hbody.eval A hA hinner, Algebra.eval_congr b fun n hn => ?_]
  by_cases hbound : n ∈ t.boundNames
  · rcases hnames.bound n hbound hn with ⟨m, _, hnm⟩
    rw [hnm.valuation, hread m n ⟨hbound, hn, hnm⟩]
  · rw [hτ'.eq_of_not_mem A (boundNames_eq h.op ▸ hbound), ← hnames.valuation_eq
      (fun l hl => hτ.eq_of_not_mem A (boundNames_eq h.op_result ▸ hl)) hbound hn]

theorem of_all (h : Rebound σ inc taken outer inner t b vs us r b')
    (hus : Tidy t → σ.Clear t → (∀ q ∈ σ.values, Tidy q) → ∀ u ∈ us, Tidy u)
    (hbody : Substituted inner b b') : Substituted σ t r := by
  have hnames := h.rebinds
  have hbt := mem_of_getLast? h.body
  refine ⟨fun A hA hsuits => eval_quantifier h hbody hA hsuits, fun l => ?_,
    fun htidy hclear hσ => .intro (fun c hc => ?_) fun _ => h.tidyBinders htidy hclear,
    fun _ => h.head⟩
  · rw [free_all h.op_result h.body_result, hbody.free]
    constructor
    · rintro ⟨hl, n, hn, hread⟩
      by_cases hbound : n ∈ t.boundNames
      · -- A bound name reads a new bound name, which is not free.
        rcases hnames.bound n hbound hn with ⟨m, hm, hnm⟩
        rw [← hnm.eq_of_reads hread] at hm
        exact absurd hm hl
      · exact ⟨n, .body h.op h.body hbound hn, hread.congr_find? (hnames.other n hbound)⟩
    · rintro ⟨n, hn, hread⟩
      rcases (free_all h.op h.body).mp hn with ⟨hbound, hn⟩
      exact ⟨hnames.clear n hbound hn l hread, n, hn,
        hread.congr_find? (hnames.other n hbound).symm⟩
  · rw [h.children] at hc
    rcases mem_append.mp hc with hc | hc
    · exact hus htidy hclear hσ c hc
    · rw [mem_singleton.mp hc]
      refine hbody.tidy (htidy.operand hbt) (h.clear hclear) fun q hq => ?_
      rcases h.renamed.values hq with hq | ⟨hnil, n, hn⟩
      · exact hσ q (h.values q hq)
      · exact .of_leaf (by simp [op_of_name? hn]) hnil

end Quantifier

theorem heads {vs us : List Term} (h : Forall₂ (Substituted σ) vs us) :
    (∀ n ∈ vs.filterMap name?, σ.find? n = none) →
      Forall₂ (fun u v => u.head = v.head) us vs := by
  induction h with
  | nil => exact fun _ => .nil
  | cons hvu _ ih =>
    intro hnone
    refine .cons (hvu.head fun n hn => hnone n ?_) (ih fun n hn => hnone n (mem_filterMap_cons hn))
    exact mem_filterMap.mpr ⟨_, by simp, hn⟩

theorem of_not_meets {W : Stock} (ht : t ∈ W.terms) (hinc : ∀ n, n ∈ σ.incoming ↔ σ.Incoming n)
    (hfind : t.name?.bind σ.find? = none) (hmeets : ¬ σ.meets σ.incoming t.boundNames = true)
    (hhead : r.head = t.head) (hcs : Forall₂ (Substituted σ) t.children r.children) :
    Substituted σ t r := by
  have hnot := meets_eq_false hmeets
  cases hname : t.name? with
  | some n => exact .of_var hname (by simpa [hname] using hfind) hhead hcs
  | none =>
    by_cases hop : t.op = .all
    · cases hb : t.children.getLast? with
      | none =>
        have hnil := getLast?_eq_none_iff.mp hb
        rw [hnil] at hcs
        exact .of_empty hop hnil hhead (forall₂_nil_left_iff.mp hcs)
      | some b =>
        have hbound := boundNames_of_op_all hop
        have hbW : b ∈ W.terms := W.closed t ht b (mem_of_getLast? hb)
        have hdrop : ∀ c ∈ t.children.dropLast, c ∈ t.children :=
          fun c hc => mem_of_mem_dropLast hc
        rw [← dropLast_append_getLast? b hb] at hcs
        rcases forall₂_concat hcs with ⟨us, b', hr, hus, hbody⟩
        -- A quantifier whose binders stay is the case of the trivial renaming.
        have hrebound : Rebound σ σ.incoming (b.allNames ++ σ.incoming) σ σ t b
            t.children.dropLast us r b' :=
          ⟨hop, hb, hhead, hr, heads hus fun n hn => (hnot n (hbound ▸ hn)).1,
            .refl _ σ fun n hn => (hnot n (hbound ▸ hn)).2, hinc,
            fun n hn => mem_append.mpr (hn.imp_left (mem_allNames_of_mentions hbW)),
            fun n hn => (hnot n hn).1, fun _ _ => rfl, fun _ hq => hq⟩
        refine .of_all hrebound (fun htidy hclear => ?_) hbody
        exact tidy_operands hus (fun c hc => htidy.operand (hdrop c hc)) fun c hc =>
          hclear.operand (hdrop c hc)
    · exact .of_operands hname hop hhead hcs

end Substituted

/-- The replacements are members of the stock. -/
def Supplied (σ : Subst) (W : Stock) (_ : Term) : Prop :=
  ∀ r ∈ σ.values, r ∈ W.terms

/-- Each member of the stock becomes the term with its names replaced. -/
def substituting : Passage Stock :=
  .ofStock Stock.Fits Supplied Substituted fun hWX h r hr => hWX.1 (h r hr)

variable {σ : Subst} {W : Stock} {t : Term} {memo : NodeMap Term}

theorem builds_below_binders {b : Term} (ih : substituting.Substitutes b) (ht : t ∈ W.terms)
    (hop : t.op = .all) (hb : t.children.getLast? = some b) (hσ : Supplied σ W t)
    (hmemo : substituting.Remembers σ W memo) :
    Builds W (do
      let bodyNames := (t.children.getLast?.map allNames).getD []
      let p ← Subst.renameBinders σ.incoming t.children.dropLast
        (bodyNames ++ σ.incoming ++ σ.keys) (σ.eraseAll t.boundNames)
      let body ← substLast p.2 p.2.incoming t.children
      let r ← t.withChildren (p.1 ++ body.toList)
      pure (r, memo)) (substituting.Rebuilt σ t) := by
  have hbW : b ∈ W.terms := W.closed t ht b (mem_of_getLast? hb)
  have htaken : ∀ n, Mentions n b ∨ n ∈ σ.incoming →
      n ∈ (t.children.getLast?.map allNames).getD [] ++ σ.incoming ++ σ.keys := by
    intro n hn
    rw [hb]
    rcases hn with hn | hn
    · simp [mem_allNames_of_mentions hbW hn]
    · simp [hn]
  refine leaves_bind (builds_renameBinders σ.incoming _ _ _
    (fun v hv => W.closed t ht v (mem_of_mem_dropLast hv))
    (fun r hr => hσ r (mem_values_eraseAll hr))) fun X p hWX hp => ?_
  obtain ⟨hren, hvars, hvalues⟩ := hp
  refine leaves_bind (ih.substLast (hWX.1 hbW) hvalues (fun hempty => .refl hempty b) hb)
    fun Y body hXY hbody => ?_
  obtain ⟨b', rfl, hb', hrep⟩ := hbody
  refine leaves_bind (builds_withChildren (hXY.1 (hWX.1 ht)) (forall_mem_append.mpr
    ⟨fun c hc => hXY.1 (hvars c hc), forall_mem_singleton.mpr hb'⟩)) fun Z r hYZ hr => ?_
  refine leaves_pure ⟨hr.1, ?_, hmemo.mono (hWX.trans (hXY.trans hYZ))⟩
  refine .of_all ⟨hop, hb, hr.2.1, hr.2.2, forall₂_same.mpr fun _ _ => rfl, hren,
    fun n => mem_incoming hσ, htaken, fun n hn => ?_, fun n hn => ?_,
    fun q hq => mem_values_eraseAll hq⟩ (fun htidy _ _ u hu => ?_) hrep
  · rw [find?_eraseAll, if_pos hn]
  · rw [find?_eraseAll, if_neg hn]
  · rcases hren.vars hu with hu | ⟨hnil, n, hn⟩
    · exact htidy.operand (mem_of_mem_dropLast hu)
    · exact .of_leaf (by simp [op_of_name? hn]) hnil

theorem builds_first_substituted (ih : ∀ c ∈ t.children, substituting.Substitutes c)
    (ht : t ∈ W.terms) (hσ : Supplied σ W t) (hmemo : substituting.Remembers σ W memo) :
    Builds W (substFirst σ σ.incoming t memo) (substituting.Rebuilt σ t) := by
  unfold substFirst
  split
  · next r hfound =>
    rcases Option.bind_eq_some_iff.mp hfound with ⟨n, hn, hr⟩
    exact leaves_pure ⟨hσ r (mem_values_of_find? hr), .of_replaced hn hr, hmemo⟩
  · next hfind =>
    split
    · next hmeets =>
      rcases getLast?_of_meets hmeets with ⟨b, hb⟩
      have hbody := ih b (mem_of_getLast? hb)
      exact builds_below_binders hbody ht (op_of_meets hmeets) hb hσ hmemo
    · next hmeets =>
      refine leaves_bind (Passage.leaves_substNodes ih (fun c hc => ⟨W.closed t ht c hc, hσ⟩) hmemo)
        fun X p hWX hp => ?_
      rcases hp with ⟨hmem, hrel, hmemo'⟩
      refine leaves_bind (builds_withChildren (hWX.1 ht) hmem) fun Y r hXY hr => ?_
      refine leaves_pure ⟨hr.1, ?_, hmemo'.mono hXY⟩
      exact .of_not_meets ht (fun n => mem_incoming hσ) hfind hmeets hr.2.1 (hr.2.2 ▸ hrel)

theorem builds_substituted (ht : t ∈ W.terms) (hσ : ∀ r ∈ σ.values, r ∈ W.terms) :
    Builds W (t.subst σ) fun X r => r ∈ X.terms ∧ Substituted σ t r := by
  have h : substituting.Substitutes t :=
    Passage.substitutes_of_first (fun _ ih _ _ _ => builds_first_substituted ih) t
  exact h.subst ht hσ fun hempty => .refl hempty t

end Term

/-! ### In a standard interpretation -/

namespace Subst

variable {I : Interp} {σ : Subst}

/-- The assignment under which a term has the value that the substituted term
    has under the given one. -/
noncomputable def after (I : Interp) (σ : Subst) (ρ : Assignment I.Value) : Assignment I.Value :=
  fun n => match σ.find? n with
    | some r => r.eval I ρ
    | none => ρ n

variable {n : String}

theorem after_of_some {r : Term} (h : σ.find? n = some r) (ρ : Assignment I.Value) :
    σ.after I ρ n = r.eval I ρ := by
  rw [after, h]

theorem after_of_none (h : σ.find? n = none) (ρ : Assignment I.Value) : σ.after I ρ n = ρ n := by
  rw [after, h]

theorem valuation_algebra (σ : Subst) (ρ : Assignment I.Value) :
    σ.valuation I.algebra ρ = σ.after I ρ := by
  ext n
  cases hn : σ.find? n with
  | none => rw [valuation_of_none hn, after_of_none hn]
  | some r => rw [valuation_of_some hn, after_of_some hn, I.eval_algebra]

end Subst

/-- Replaced names have the values of their replacements. -/
theorem Term.Substituted.eval_after {σ : Subst} {t r : Term} (h : Substituted σ t r)
    (htidy : Tidy t) (hclear : σ.Clear t) (I : Interp) (ρ : Assignment I.Value) :
    r.eval I ρ = t.eval I (σ.after I ρ) := by
  rw [← I.eval_algebra, ← I.eval_algebra, ← Subst.valuation_algebra]
  exact h.eval I.algebra I.exists_dom (.inr ⟨htidy, hclear⟩) ρ

/-! ### In one universe -/

/-- Substitution is simultaneous and captures nothing. In one universe, the value of
    the result is the value of the term when every replaced name stands for the
    value of its replacement, and the free names of the result are those that
    are not replaced and those of the replacements put in. -/
theorem substitution_is_simultaneous {W : Stock} {s : Supply} (hs : W.Fits s) {t : Term}
    (ht : t ∈ W.terms) {σ : Subst} (hσ : ∀ q ∈ σ.values, q ∈ W.terms) :
    (∀ A : Algebra, (∀ s v, A.Dom s v) → ∀ ρ : Assignment A.Value,
      A.eval ((t.subst σ).run s).1 ρ = A.eval t (σ.valuation A ρ)) ∧
    ∀ n, n ∈ ((t.subst σ).run s).1.freeVars ↔
      (n ∈ t.freeVars ∧ σ.find? n = none) ∨
        ∃ m ∈ t.freeVars, ∃ q, σ.find? m = some q ∧ n ∈ q.freeVars := by
  rcases Term.builds_substituted ht hσ s hs with ⟨X, _, _, hr, hsub⟩
  refine ⟨fun A hA => hsub.eval A (fun s => ⟨A.truth True, hA s _⟩) (.inl hA), fun n => ?_⟩
  rw [Term.mem_freeVars hr, hsub.free]
  simp only [Term.mem_freeVars ht]
  constructor
  · rintro ⟨m, hm, ⟨hnone, rfl⟩ | ⟨q, hq, hn⟩⟩
    · exact .inl ⟨hm, hnone⟩
    · have hqW := hσ q (mem_values_of_find? hq)
      exact .inr ⟨m, hm, q, hq, (Term.mem_freeVars hqW).mpr hn⟩
  · rintro (⟨hn, hnone⟩ | ⟨m, hm, q, hq, hn⟩)
    · exact ⟨n, hn, .inl ⟨hnone, rfl⟩⟩
    · have hqW := hσ q (mem_values_of_find? hq)
      exact ⟨m, hm, .inr ⟨q, hq, (Term.mem_freeVars hqW).mp hn⟩⟩

/-- A variable, numbered among the nodes of its family. -/
def numberedVar (index : Nat) (name : String) : Term :=
  .node ⟨0, index⟩ { op := .var, sort := .value, payload := some (.name name) } [] []

/-- The nodes of a quantifier over `x` and over the name that `x` is going to get,
    with the equation of `x` and `y` below it. The quantifier is the last. -/
def crowdedNodes : List Term :=
  let x := numberedVar 0 "x"
  let other := numberedVar 1 "x$$q0"
  let y := numberedVar 2 "y"
  let body := .node ⟨0, 3⟩ { op := .eq, sort := .formula } [x, y] []
  [x, other, y, body, .node ⟨0, 4⟩ { op := .all, sort := .formula } [x, other, body] []]

/-- Both binders end up with the same name when `x` is put for `y`, and the value
    is right nevertheless. -/
theorem substitution_is_simultaneous_crowded :
    ∃ t ∈ crowdedNodes, ∃ σ : Subst, σ.find? "y" = some (numberedVar 0 "x") ∧
      t.boundNames = ["x", "x$$q0"] ∧
      ((t.subst σ).run { nextNode := 5 }).1.boundNames = ["x$$q0", "x$$q0"] ∧
      (∀ ρ, Interp.trees.unsorted.eval ((t.subst σ).run { nextNode := 5 }).1 ρ =
        Interp.trees.unsorted.eval t (σ.valuation Interp.trees.unsorted ρ)) ∧
      ∀ n, n ∈ ((t.subst σ).run { nextNode := 5 }).1.freeVars ↔
        (n ∈ t.freeVars ∧ σ.find? n = none) ∨
          ∃ m ∈ t.freeVars, ∃ q, σ.find? m = some q ∧ n ∈ q.freeVars := by
  let W := Stock.ofList crowdedNodes 0 (by simp [crowdedNodes, numberedVar, Term.children])
    (by decide)
  have hfits : W.Fits { nextNode := 5 } :=
    Stock.fits_ofList (by decide) rfl
  have hlast : crowdedNodes.getLast (by decide) ∈ crowdedNodes := getLast_mem _
  have h := substitution_is_simultaneous hfits (t := crowdedNodes.getLast (by decide)) hlast
    (σ := ⟨[("y", numberedVar 0 "x")]⟩) (by simp [NameMap.values, W, Stock.ofList, crowdedNodes])
  refine ⟨_, hlast, _, rfl, by decide, by decide +kernel, ?_, h.2⟩
  exact h.1 Interp.trees.unsorted fun _ _ => trivial

end Vouch
