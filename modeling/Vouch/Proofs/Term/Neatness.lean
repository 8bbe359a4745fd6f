import Vouch.Proofs.Term.Foundation
import Vouch.Proofs.Term.Parsing

/-!
# Neat Terms Are Built

Terms can be placed by how they are printed: a list of indices fits where indices are
expected, and a neat term fits everywhere else. The names of the background axioms may
be those of functions, because the axioms are closed and mention no functions.

## Main definitions

* `neatPlacing`: Neat terms with given names and function symbols.
* `Term.Readable`: The functions among the names of a neat term are bound.

## Theorems

* `Term.Readable.exists_spells`: Then it can be read back.
* `Stock.Attaches.builds_readable`: Removing sharing keeps terms readable.
-/

namespace Vouch

open List Term

namespace Term

/-- The term is neat, or it is a list of neat terms if indices are expected. -/
def Seated (N G : String → Prop) : Layer → Term → Prop
  | .indices, t => t.op = .tuple ∧ ∀ c ∈ t.children, Neat N G c
  | _, t => Neat N G t

section Seated

variable {N G N' G' : String → Prop} {l : Layer} {t r c : Term}

theorem Neat.seated (h : Neat N G t) (hl : l ≠ .indices) : Seated N G l t := by
  cases l with
  | indices => exact absurd rfl hl
  | _ => exact h

theorem Seated.neat (h : Seated N G l t) (hl : l ≠ .indices) : Neat N G t := by
  cases l with
  | indices => exact absurd rfl hl
  | _ => exact h

theorem layer_sort_ne (sort : TermSort) : sort.layer ≠ .indices := by
  cases sort <;> simp [TermSort.layer, TermSort.isFormula]

theorem Seated.neat_of_op_ne (h : Seated N G l t) (hop : t.op ≠ .tuple) : Neat N G t := by
  cases l with
  | indices => exact absurd h.1 hop
  | _ => exact h

theorem Neat.mono (h : Neat N G t) (hN : ∀ n, N n → N' n) (hG : ∀ f, G f → G' f) :
    Neat N' G' t := by
  induction h with
  | var hn hcs hname => exact .var hn hcs (hN _ hname)
  | int hhead hcs => exact .int hhead hcs
  | bool hhead hcs => exact .bool hhead hcs
  | plain hop _ ih => exact .plain hop ih
  | call hop hf _ ih => exact .call hop (hG _ hf) ih
  | select hop hcs hi _ _ ihm ihi => exact .select hop hcs hi ihm ihi
  | update hop hcs hi _ _ _ ihm ihi ihv => exact .update hop hcs hi ihm ihi ihv
  | all hop hcs hvs _ _ ihvs ihb => exact .all hop hcs hvs ihvs ihb

theorem Seated.mono (h : Seated N G l t) (hN : ∀ n, N n → N' n) (hG : ∀ f, G f → G' f) :
    Seated N' G' l t := by
  cases l with
  | indices => exact ⟨h.1, fun c hc => (h.2 c hc).mono hN hG⟩
  | _ => exact Neat.mono h hN hG

theorem Seated.operand (h : Seated N G l t) (hc : c ∈ t.children) : ∃ k, Seated N G k c := by
  by_cases hl : l = .indices
  · subst hl
    exact ⟨.value, h.2 c hc⟩
  · cases h.neat hl with
    | var _ hcs _ | int _ hcs | bool _ hcs => simp [hcs] at hc
    | plain _ hcs | call _ _ hcs => exact ⟨.value, hcs c hc⟩
    | @select _ m i _ hcs hi hm his =>
      have hc : c = m ∨ c = i := by simpa [hcs] using hc
      rcases hc with rfl | rfl
      · exact ⟨.value, hm⟩
      · exact ⟨.indices, hi, his⟩
    | @update _ m i v _ hcs hi hm his hv =>
      have hc : c = m ∨ c = i ∨ c = v := by simpa [hcs] using hc
      rcases hc with rfl | rfl | rfl
      · exact ⟨.value, hm⟩
      · exact ⟨.indices, hi, his⟩
      · exact ⟨.value, hv⟩
    | all _ hcs _ hvs hb =>
      rw [hcs] at hc
      rcases mem_append.mp hc with hc | hc
      · exact ⟨.value, hvs c hc⟩
      · exact ⟨.value, mem_singleton.mp hc ▸ hb⟩

theorem Seated.body (h : Seated N G l t) (hop : t.op = .all) :
    ∃ vs b, t.children = vs ++ [b] ∧ (∀ v ∈ vs, Neat N G v ∧ ∃ n, v.name? = some n) ∧
      Neat N G b := by
  cases h.neat_of_op_ne (by simp [hop]) with
  | all _ hcs hnames hvs hb => exact ⟨_, _, hcs, fun v hv => ⟨hvs v hv, hnames v hv⟩, hb⟩
  | var hn _ _ =>
    rw [op_of_name? hn] at hop
    cases hop
  | int hhead _ | bool hhead _ =>
    rw [op, hhead] at hop
    cases hop
  | plain h _ | call h _ _ | select h _ _ _ _ | update h _ _ _ _ _ =>
    rw [hop] at h
    cases h

theorem Seated.of_name? (h : Seated N G l t) {n : String} (hn : t.name? = some n) :
    l ≠ .indices ∧ t.children = [] ∧ N n := by
  have hop := op_of_name? hn
  refine ⟨?_, (h.neat_of_op_ne (by simp [hop])).of_name? hn⟩
  rintro rfl
  rw [h.1] at hop
  cases hop

theorem Seated.free {n : String} (hn : Free n t) : ∀ {l : Layer}, Seated N G l t → N n := by
  induction hn with
  | var hname => exact fun h => (h.of_name? hname).2.2
  | operand _ _ hc _ ih =>
    intro l h
    rcases h.operand hc with ⟨k, hk⟩
    exact ih hk
  | body hop hlast _ _ ih =>
    intro l h
    rcases h.body hop with ⟨vs, b, hcs, _, hb⟩
    rw [hcs, getLast?_concat, Option.some.injEq] at hlast
    exact ih (l := .formula) (hlast ▸ hb)

theorem Seated.rebuild (h : Seated N G l t) (hall : t.op ≠ .all) (hhead : r.head = t.head)
    (hcs : Forall₂ (fun c d => ∀ k, Seated N G k c → Seated N G k d) t.children
      r.children) : Seated N G l r := by
  have hop : r.op = t.op := congrArg Head.op hhead
  have hnil : t.children = [] → r.children = [] := by
    intro hnil
    rw [hnil] at hcs
    exact forall₂_nil_left_iff.mp hcs
  have hneat : (∀ c ∈ t.children, Neat N G c) → ∀ d ∈ r.children, Neat N G d := by
    intro h d hd
    rcases exists_of_forall₂_right hcs hd with ⟨c, hc, hcd⟩
    exact hcd .value (h c hc)
  by_cases hl : l = .indices
  · subst hl
    exact ⟨hop.trans h.1, hneat h.2⟩
  refine Neat.seated ?_ hl
  cases h.neat hl with
  | var hn hcs hname => exact .var ((name?_eq_of_head hhead).trans hn) (hnil hcs) hname
  | int h hcs => exact .int (hhead.trans h) (hnil hcs)
  | bool h hcs => exact .bool (hhead.trans h) (hnil hcs)
  | plain h hcs => exact .plain (hop ▸ h) (hneat hcs)
  | call h hf hcs => exact .call (hop.trans h) hf (hneat hcs)
  | select h hchildren hi hm his =>
    rw [hchildren] at hcs
    generalize hds : r.children = ds at hcs
    rcases hcs with _ | ⟨hm', _ | ⟨hi', _ | _⟩⟩
    have hi' := hi' .indices ⟨hi, his⟩
    exact .select (hop.trans h) hds hi'.1 (hm' .value hm) hi'.2
  | update h hchildren hi hm his hv =>
    rw [hchildren] at hcs
    generalize hds : r.children = ds at hcs
    rcases hcs with _ | ⟨hm', _ | ⟨hi', _ | ⟨hv', _ | _⟩⟩⟩
    have hi' := hi' .indices ⟨hi, his⟩
    exact .update (hop.trans h) hds hi'.1 (hm' .value hm) hi'.2 (hv' .value hv)
  | all h _ _ _ _ => exact absurd h hall

theorem seated_of_operands {k : Layer} (hk : t.op.operands? = some k)
    (hl : t.op.layer? = some l) (hf : ∀ f, t.op = .app f → G f)
    (hcs : ∀ c ∈ t.children, Seated N G k c) : Seated N G l t := by
  have hcases : (∃ f, t.op = .app f) ∨ t.op = .tuple ∨ t.op.isPlain = true := by
    cases hop : t.op with
    | app f => exact .inl ⟨f, rfl⟩
    | tuple => exact .inr (.inl rfl)
    | all | mapSelect | mapUpdate | var | lit =>
      rw [hop] at hk
      cases hk
    | _ => exact .inr (.inr rfl)
  have hoperand : k ≠ .indices := by
    cases hop : t.op <;> rw [hop] at hk <;> cases hk <;> simp
  have hneat : ∀ c ∈ t.children, Neat N G c := fun c hc => (hcs c hc).neat hoperand
  rcases hcases with ⟨f, hop⟩ | hop | hop
  · rw [hop] at hl
    cases hl
    exact Neat.call hop (hf f hop) hneat
  · rw [hop] at hl
    cases hl
    exact ⟨hop, hneat⟩
  · refine Neat.seated (.plain hop hneat) ?_
    rintro rfl
    cases h : t.op <;> rw [h] at hl <;> cases hl
    rw [h] at hop
    cases hop

end Seated

end Term

/-! ### Neat terms in their places -/

/-- Neat terms with given names and function symbols. Variables have no operands. -/
def neatPlacing (N G : String → Prop) (A : Term → Prop) : Placing where
  names l n := l ≠ .indices ∧ N n
  functions := G
  fits := Seated N G
  node t := ∀ n, t.name? = some n → t.children = []
  attached := A

section Placing

variable {N G : String → Prop} {A : Term → Prop} {t : Term}

theorem neatNode_of_op_ne (h : t.op ≠ .var) : (neatPlacing N G A).node t := by
  intro n hn
  exact absurd (op_of_name? hn) h

theorem neatPlacing_suits (hN : ∀ n k, N n → N (renamedBinder n k))
    (hA : ∀ a, Neat N G a → A a) : (neatPlacing N G A).Suits where
  attach h := hA _ h
  bool hhead hcs :=
    ⟨fun _ _ => hcs, Neat.seated (.bool hhead hcs) (layer_sort_ne _)⟩
  int hhead hcs := ⟨fun _ _ => hcs, .int hhead hcs⟩
  var _ hcs := fun _ _ => hcs
  of_name? ht hn hnames := Neat.seated (.var hn (ht _ hn) hnames.2) hnames.1
  operator hk hl _ hf hcs := by
    refine ⟨neatNode_of_op_ne fun hop => ?_, seated_of_operands hk hl hf hcs⟩
    rw [hop] at hk
    cases hk
  mapSelect hop _ hcs hm hi :=
    ⟨neatNode_of_op_ne (by simp [hop]), .select hop hcs hi.1 hm hi.2⟩
  mapUpdate hop _ hcs hm hi hv :=
    ⟨neatNode_of_op_ne (by simp [hop]), .update hop hcs hi.1 hm hi.2 hv⟩
  all hop _ hcs hvs hb :=
    ⟨neatNode_of_op_ne (by simp [hop]),
      .all hop hcs (fun v hv => (hvs v hv).2) (fun v hv => (hvs v hv).1) hb⟩
  operand _ h hc := Seated.operand h hc
  body _ h hop := Seated.body h hop
  name h hn := ⟨(Seated.of_name? h hn).1, (Seated.of_name? h hn).2.2⟩
  exchange hk hl hr := Neat.seated (Seated.neat hr hk.1) hl.1
  renamed k hn := ⟨hn.1, hN _ k hn.2⟩
  rebind _ _ hu hn _ hnames := .var hn (hu _ hn) hnames.2
  rebuild ht h hop hhead hcs := by
    refine ⟨fun n hn => ?_, Seated.rebuild h hop hhead hcs⟩
    have hnil := ht n ((name?_eq_of_head hhead).symm.trans hn)
    rw [hnil] at hcs
    exact forall₂_nil_left_iff.mp hcs
  requantify _ h hop hhead hcs hvs hb := by
    have hrop : Term.op _ = .all := (congrArg Head.op hhead).trans hop
    refine ⟨neatNode_of_op_ne (by simp [hrop]), Neat.seated (.all hrop hcs
      (fun v hv => (hvs v hv).2) (fun v hv => (hvs v hv).1) hb) ?_⟩
    rintro rfl
    rw [h.1] at hop
    cases hop

end Placing

/-! ### Names that are generated -/

theorem isName_of_dollars {w : String} (hw : IsWord w) (hdollars : ¬ PlainName w)
    (htrue : w ≠ valueName "TRUE") (hfalse : w ≠ valueName "FALSE") : IsName w := by
  refine ⟨hw, numeral?_eq_none fun n hn => ?_, find?_eq_none.mpr fun p hp htext => ?_⟩
  · rw [hn] at hdollars
    exact hdollars fun h => dollar_not_mem_toString n (h.subset mem_cons_self)
  · have hwords : ∀ p ∈ truths, PlainName ((Literal.bool p.1).text p.2) ∨
        (Literal.bool p.1).text p.2 ∈ [valueName "TRUE", valueName "FALSE"] := by
      decide +kernel
    rw [beq_iff_eq] at htext
    rcases htext ▸ hwords p hp with hplain | hmem
    · exact hdollars hplain
    · simp [htrue, hfalse] at hmem

theorem isName_versionName {x : String} (hx : IsWord x) (k : Nat) : IsName (versionName x k) := by
  have hk : ∀ y, 'E' ∈ y.toList → '$' ∉ y.toList → versionName x k ≠ valueName y := by
    intro y hE hy h
    rw [valueName_eq] at h
    have hdigits := (dollars_inj (dollar_not_mem_toString k) hy h).2
    exact not_mem_toString (by decide) k (hdigits ▸ hE)
  exact isName_of_dollars ((hx.append (IsWord.letters (by decide))).append (letters_toString k))
    (not_plainName_append _ _) (hk _ (by decide) (by decide)) (hk _ (by decide) (by decide))

theorem isName_renamedBinder {n : String} (hn : IsName n) (k : Nat) :
    IsName (renamedBinder n k) := by
  have hk : ∀ y, 'q' ∉ y.toList → '$' ∉ y.toList → renamedBinder n k ≠ valueName y := by
    intro y hq hy h
    rw [renamedBinder_eq, valueName_eq] at h
    have hmark := (dollars_inj (dollar_not_mem_mark k) hy h).2
    refine hq (hmark ▸ ?_)
    simp
  refine isName_of_dollars
    ((hn.word.append (IsWord.letters (by decide))).append (letters_toString k)) ?_
    (hk _ (by decide) (by decide)) (hk _ (by decide) (by decide))
  rw [renamedBinder_eq]
  exact not_plainName_append _ _

theorem isName_valueName {x : String} (hx : IsWord x) (htrue : x ≠ "TRUE") (hfalse : x ≠ "FALSE") :
    IsName (valueName x) := by
  have hterm : IsWord ("term" ++ "$$") := by decide
  refine isName_of_dollars ?_ ?_ (fun h => htrue (valueName_inj h))
    fun h => hfalse (valueName_inj h)
  · rw [valueName_eq]
    exact hterm.append hx.letters
  · rw [valueName_eq]
    exact not_plainName_append _ _

theorem isName_sharedName (k : Nat) : IsName (sharedName k) :=
  isName_versionName (by decide) k

theorem AxiomName.isName {n : String} (h : AxiomName n) : IsName n := by
  cases h with
  | letter hn =>
    have hletters : ∀ n ∈ ["a", "b", "m", "v"],
        IsWord n ∧ numeral? n = none ∧ truth? n = none := by
      decide +kernel
    rcases hletters n hn with ⟨hword, hnumeral, htruth⟩
    exact ⟨hword, hnumeral, htruth⟩
  | @index base hbase k =>
    have hbases : ∀ base ∈ ["i", "j"], IsWord base ∧ base.toList ≠ [] ∧
        (base.toList.all fun c => !c.isDigit) = true ∧
        ∀ p ∈ truths, ((Literal.bool p.1).text p.2).toList.head? ≠ base.toList.head? := by
      decide +kernel
    rcases hbases base hbase with ⟨hword, hne, hdigit, htruths⟩
    -- The letter in front tells the name from numbers and truth values.
    have hhead : (base ++ toString k).toList.head? = base.toList.head? := by
      rw [String.toList_append, head?_append_of_ne_nil _ hne]
    refine ⟨hword.append (letters_toString k), numeral?_eq_none fun n hn => ?_,
      find?_eq_none.mpr fun p hp htext => htruths p hp ?_⟩
    · rcases exists_mem_of_ne_nil _ hne with ⟨c, hc⟩
      refine not_mem_toString ((Bool.not_eq_true' _).mp (all_eq_true.mp hdigit c hc)) n ?_
      rw [← hn, String.toList_append]
      exact mem_append_left _ hc
    · rw [beq_iff_eq] at htext
      rw [htext, hhead]

/-! ### Terms that can be read back -/

namespace Term

/-- The names and function symbols of the term can be read as what they are, `F` being
    the functions, and the functions among its names are bound. -/
def Readable (F : String → Bool) (l : Layer) (t : Term) : Prop :=
  ∃ N G, Lexicon F N G ∧ Seated N G l t ∧ ∀ n, Free n t → F n = false

section Readable

variable {F : String → Bool} {l : Layer} {t r : Term}

theorem Readable.exists_spells (h : Readable F .formula t) : ∃ e, Spells F [] t e := by
  rcases h with ⟨N, G, hlex, hneat, hfree⟩
  exact Neat.exists_spells hlex hneat (by simp) fun n hn => .inr (hfree n hn)

theorem Readable.operand (h : Readable F l t) (hop : t.op ≠ .all) {c : Term}
    (hc : c ∈ t.children) : ∃ k, Readable F k c := by
  rcases h with ⟨N, G, hlex, hseated, hfree⟩
  rcases hseated.operand hc with ⟨k, hk⟩
  have hname : t.name? = none := by
    by_contra hname
    rcases Option.ne_none_iff_exists'.mp hname with ⟨n, hn⟩
    rw [(hseated.of_name? hn).2.1] at hc
    exact absurd hc not_mem_nil
  exact ⟨k, N, G, hlex, hk, fun n hn => hfree n (.operand hname hop hc hn)⟩

theorem Readable.formula_of_isShareable (h : Readable F l t) (hshare : t.isShareable = true) :
    Readable F .formula t := by
  rcases h with ⟨N, G, hlex, hseated, hfree⟩
  refine ⟨N, G, hlex, hseated.neat_of_op_ne fun hop => ?_, hfree⟩
  simp [isShareable, hop] at hshare

end Readable

/-! ### Removing sharing -/

section Sharing

variable {F : String → Bool} {N G : String → Prop} {A : List (Nat × Term)} {l : Layer} {t r : Term}

theorem Written.seated (hw : Written A t r) (hA : ∀ k u, (k, u) ∈ A → u.isShareable = true)
    (hN : ∀ k, N (sharedName k)) : ∀ l, Seated N G l t → Seated N G l r := by
  induction hw with
  | @name k t v hk hv =>
    intro l h
    refine Neat.seated (.var hv.name? hv.children (hN k)) ?_
    rintro rfl
    have hshare := hA k t hk
    simp [isShareable, h.1] at hshare
  | @node t r hhead hall hlen _ ih =>
    intro l h
    by_cases hop : t.op = .all
    · rwa [hall hop]
    exact h.rebuild hop hhead
      (forall₂_iff_zip.mpr ⟨hlen hop, fun {c d} hcd => ih hop (c, d) hcd⟩)

theorem Written.free (hw : Written A t r) {n : String} :
    Free n r → Free n t ∨ ∃ k, n = sharedName k := by
  induction hw with
  | @name k t v _ hv => exact fun h => .inr ⟨k, (free_var hv.name?).mp h⟩
  | @node t r hhead hall hlen _ ih =>
    intro h
    by_cases hop : t.op = .all
    · rw [hall hop] at h
      exact .inl h
    have hname := name?_eq_of_head hhead
    cases h with
    | var hn => exact .inl (.var (hname.symm.trans hn))
    | @operand _ d hnone _ hd hfree =>
      have hzip : Forall₂ (fun c e => Free n e → Free n c ∨ ∃ k, n = sharedName k)
          t.children r.children :=
        forall₂_iff_zip.mpr ⟨hlen hop, fun {c e} hce => ih hop (c, e) hce⟩
      rcases exists_of_forall₂_right hzip hd with ⟨c, hc, h⟩
      exact (h hfree).imp_left fun h => .operand (hname.symm.trans hnone) hop hc h
    | body hrop _ _ _ => exact absurd ((congrArg Head.op hhead).symm.trans hrop) hop

variable (hF : ∀ k, F (sharedName k) = false)
include hF

theorem Readable.exists_lexicon (h : Readable F l t) : ∃ N G, Lexicon F N G ∧
    (∀ k, N (sharedName k)) ∧ Seated N G l t ∧ ∀ n, Free n t → F n = false := by
  rcases h with ⟨N, G, hlex, hseated, hfree⟩
  refine ⟨fun n => N n ∨ ∃ k, n = sharedName k, G, ⟨fun n hn => ?_, fun f hf => ?_⟩,
    fun k => .inr ⟨k, rfl⟩, hseated.mono (fun _ hn => .inl hn) (fun _ hf => hf), hfree⟩
  · rcases hn with hn | ⟨k, rfl⟩
    · exact hlex.name n hn
    · exact isName_sharedName k
  · rcases hlex.symbol f hf with ⟨hsymbol, hFf, hNf⟩
    refine ⟨hsymbol, hFf, fun hn => ?_⟩
    rcases hn with hn | ⟨k, rfl⟩
    · exact hNf hn
    · rw [hF k] at hFf
      cases hFf

theorem Written.readable (hw : Written A t r) (hA : ∀ k u, (k, u) ∈ A → u.isShareable = true)
    (ht : Readable F l t) : Readable F l r := by
  rcases ht.exists_lexicon hF with ⟨N, G, hlex, hN, hseated, hfree⟩
  refine ⟨N, G, hlex, hw.seated hA hN l hseated, fun n hn => ?_⟩
  rcases hw.free hn with hn | ⟨k, rfl⟩
  · exact hfree n hn
  · exact hF k

theorem Defines.readable {k : Nat} {d : Term} (hd : Defines k r d) (hr : Readable F .formula r) :
    Readable F .formula d := by
  rcases hr.exists_lexicon hF with ⟨N, G, hlex, hN, hneat, hfree⟩
  rcases hd.sides with ⟨v, hv, hcs⟩
  have hop : d.op.isPlain = true ∧ d.op ≠ .all ∧ d.op ≠ .var := by
    rw [op, hd.head]
    split <;> exact ⟨rfl, by simp, by simp⟩
  have hplain : Neat N G d := by
    refine .plain hop.1 ?_
    rw [hcs, forall_mem_cons, forall_mem_singleton]
    exact ⟨.var hv.name? hv.children (hN k), hneat⟩
  refine ⟨N, G, hlex, hplain, fun n hn => ?_⟩
  rcases (free_operand (name?_of_op_ne hop.2.2) hop.2.1).mp hn with ⟨c, hc, hn⟩
  have hc : c = v ∨ c = r := by simpa [hcs] using hc
  rcases hc with rfl | rfl
  · rw [(free_var hv.name?).mp hn]
    exact hF k
  · exact hfree n hn

theorem Named.readable {P : Term → Prop} {M M' : Nat} {ds : List Term} (h : Named P M ds A M')
    (hP : ∀ t, P t → ∃ l, Readable F l t) : ∀ d ∈ ds, Readable F .formula d := by
  intro d hmem
  rcases h.exists_defines hmem with ⟨k, t, r, hk, hr, hd⟩
  rcases h.of_mem hk with ⟨_, _, ht, hshare⟩
  rcases hP t ht with ⟨l, hl⟩
  have hreadable := hr.written.readable hF (fun j u hj => (h.of_mem hj).2.2.2) hl
  exact hd.readable hF (hreadable.formula_of_isShareable
    ((Reading.isShareable_of_head hr.head).trans hshare))

end Sharing

end Term

theorem Stock.Attaches.builds_readable {F : String → Bool} {W : Stock} {th : Theory}
    {ts : List Term} (hW : W.Attaches (Readable F .formula)) (hth : th.Advances)
    (hF : ∀ k, F (sharedName k) = false)
    (hts : ∀ t ∈ ts, t ∈ W.terms ∧ Readable F .formula t) :
    Builds W (th.unshareAll ts) fun X u =>
      ∀ t ∈ u.sent, t ∈ X.terms ∧ Readable F .formula t := by
  have hroots : ∀ t ∈ ts, t ∈ W.terms ∧ ∃ l, Readable F l t :=
    fun t ht => ⟨(hts t ht).1, _, (hts t ht).2⟩
  refine hW.builds_unshareAll hth (fun t ht hop c hc => ?_) hroots
    (fun t ht B r hB hw => hw.readable hF hB (hts t ht).2)
    (fun _ _ _ _ h => h.readable hF fun _ ht => ht) fun _ _ ha => ha
  rcases ht with ⟨l, hl⟩
  exact hl.operand hop hc

/-! ### The background axioms -/

theorem readable_familyBuilder (F : String → Bool) (f : Nat) :
    ∀ a ∈ Theory.inFamily f (Theory.familyBuilder f), Readable F .formula a := by
  have hsuits : (neatPlacing IsName (fun _ => False) fun _ => True).Suits :=
    neatPlacing_suits (fun _ k hn => isName_renamedBinder hn k) fun _ _ => trivial
  have hplaced : (Stock.placeholders f).Placed
      (neatPlacing IsName (fun _ => False) fun _ => True) .empty := by
    refine ⟨fun t ht => ?_, fun t ht a ha => ?_, Theory.rests_empty _ _⟩
    · rcases ht with ⟨id, _, rfl⟩
      exact fun _ _ => rfl
    · rcases ht with ⟨id, _, rfl⟩
      exact absurd ha not_mem_nil
  rcases leaves_familyBuilder hsuits (fun n hn => ⟨by simp, hn.isName⟩) f { family := f }
    ⟨Stock.fits_placeholders f, hplaced⟩ with ⟨X, _, _, has⟩
  intro a ha
  refine ⟨IsName, fun _ => False, ⟨fun _ hn => hn, fun _ hf => hf.elim⟩, (has a ha).fits,
    fun n hn => ?_⟩
  exact absurd ((gives_familyBuilder Structure.standard_trees f _ a ha).bare.free n hn) not_mem_nil

theorem exists_neatStock (N G : String → Prop) (F : String → Bool) (names : Nat) :
    ∃ B : Stock, B.names = names ∧ (∀ t ∈ B.terms, t.ident.family ≠ 0) ∧
      B.Placed (neatPlacing N G (Readable F .formula)) .standard := by
  rcases exists_foundation names with ⟨B, hnames, hB, hfar, haxioms⟩
  refine ⟨B, hnames, fun t ht => (hfar t ht).1, fun t ht n hn => ?_, fun t ht a ha => ?_, ?_⟩
  · exact (hB.member t ht).children_of_name? hn
  · rw [(hfar t ht).2] at ha
    exact absurd ha not_mem_nil
  · exact Theory.rests_standard fun f hf a ha =>
      ⟨(haxioms f hf a ha).1, readable_familyBuilder F f a ha⟩

end Vouch
