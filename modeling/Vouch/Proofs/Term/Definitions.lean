import Vouch.Proofs.Logic.Reading
import Vouch.Proofs.Term.Ledger

/-!
# What Definitions Mean

A term that is written with variables for some of its nodes means the same as before in
every environment that satisfies the definitions of the variables. Freshness is needed
for the other half, that definitions take nothing away.

## Main definitions

* `Term.WellSorted`: It does.
* `Term.ShareBelow`: No variable for a shared node from a number on is mentioned.
* `Term.Unfolds`: What is sent in place of a term.

## Theorems

* `Reading.means_of_written`: What becomes of a term means what the term means.
* `Theory.builds_unshare`: Removing sharing unfolds a term.
-/

namespace Vouch

open List

/-- The head of the variable for a shared node. -/
def sharedHead (k : Nat) (sort : TermSort) : Head :=
  { op := .var, sort, payload := some (.name (sharedName k)) }

namespace Term

/-- Formulas stand where a formula is expected and values where a value is. Of what
    is below a quantifier nothing is asked. -/
inductive WellSorted : Term → Prop
  | quantifier {t : Term} : t.op = .all → WellSorted t
  | connective {t : Term} : t.op.isConnective = true → t.sort = .formula →
      (∀ c ∈ t.children, c.sort = .formula) → (∀ c ∈ t.children, WellSorted c) → WellSorted t
  | operator {t : Term} : t.op ≠ .all → t.op.isConnective = false →
      (∀ c ∈ t.children, c.sort ≠ .formula) → (∀ c ∈ t.children, WellSorted c) → WellSorted t

variable {A : List (Nat × Term)} {t r : Term}

theorem WellSorted.operand (h : WellSorted t) (hop : t.op ≠ .all) {c : Term}
    (hc : c ∈ t.children) : WellSorted c := by
  cases h with
  | quantifier hall => exact absurd hall hop
  | connective _ _ _ hcs | operator _ _ _ hcs => exact hcs c hc

/-- All heads in the term are of the kind. -/
inductive Everywhere (H : Head → Prop) : Term → Prop
  | intro {t : Term} : H t.head → (∀ c ∈ t.children, Everywhere H c) → Everywhere H t

variable {H : Head → Prop}

theorem Everywhere.head (h : Everywhere H t) : H t.head := by
  cases h with
  | intro hhead _ => exact hhead

theorem Everywhere.operand (h : Everywhere H t) {c : Term} (hc : c ∈ t.children) :
    Everywhere H c := by
  cases h with
  | intro _ hcs => exact hcs c hc

theorem Written.everywhere (hw : Written A t r)
    (hA : ∀ k u, (k, u) ∈ A → ∀ sort, H (sharedHead k sort)) (ht : Everywhere H t) :
    Everywhere H r := by
  induction hw with
  | name hk hv =>
    refine .intro ?_ (by simp [hv.children])
    rw [hv.head]
    exact hA _ _ hk _
  | @node t r hhead hall hlen _ ih =>
    by_cases hop : t.op = .all
    · rwa [hall hop]
    -- Operands are written one by one, and each of the new ones comes from an old one.
    · refine .intro (hhead ▸ ht.head) fun e he => ?_
      have hpairs : Forall₂ (fun _ e => Everywhere H e) t.children r.children :=
        forall₂_iff_zip.mpr ⟨hlen hop, fun {c e} hce =>
          ih hop (c, e) hce (ht.operand (of_mem_zip hce).1)⟩
      rcases exists_of_forall₂_right hpairs he with ⟨_, _, he⟩
      exact he

variable {M k : Nat} {P : Term → Prop} {ds : List Term} {sort sort' : TermSort}

theorem Named.everywhere {N : Nat} (h : Named P N ds A M) (hP : ∀ t, P t → Everywhere H t)
    (hvar : ∀ k, k < M → ∀ sort, H (sharedHead k sort))
    (hiff : H { op := .iff, sort := .formula }) (heq : H { op := .eq, sort := .formula }) :
    ∀ d ∈ ds, Everywhere H d := by
  intro d hmem
  rcases h.exists_defines hmem with ⟨k, t, r, hk, hr, hd⟩
  rcases hd.sides with ⟨v, hv, hsides⟩
  have hright : Everywhere H r := hr.written.everywhere
    (fun j u hj => hvar j (h.of_mem hj).2.1) (hP t (h.of_mem hk).2.2.1)
  have hleft : Everywhere H v := by
    refine .intro ?_ (by simp [hv.children])
    rw [hv.head]
    exact hvar k (h.of_mem hk).2.1 _
  refine .intro ?_ (by simp [hsides, hleft, hright])
  rw [hd.head]
  split
  · exact hiff
  · exact heq

theorem head_of_name? {n : String} (h : t.name? = some n) :
    t.head = { op := .var, sort := t.sort, payload := some (.name n) } := by
  unfold name? at h
  split at h
  · next hop hpayload =>
    rw [← Option.some.inj h, ← hop, ← hpayload]
    rfl
  · exact absurd h (by simp)

/-- The term mentions no variable for a shared node with a number from `M` on. -/
def ShareBelow (M : Nat) : Term → Prop :=
  Everywhere fun h => ∀ k sort, h = sharedHead k sort → k < M

theorem shareBelow_of_not_mentions (h : ∀ k, M ≤ k → ¬ Mentions (sharedName k) t) :
    ShareBelow M t := by
  induction t using Term.induction with
  | step t ih =>
    refine .intro (fun k sort hhead => ?_) fun c hc =>
      ih c hc fun k hk hmentions => h k hk (.operand hc hmentions)
    by_contra hk
    refine h k (by omega) (.var ?_)
    rw [name?, op, payload, hhead]
    rfl

theorem Everywhere.of_mentions (h : Everywhere H t) {n : String} (hn : Mentions n t) :
    ∃ sort, H { op := .var, sort, payload := some (.name n) } := by
  induction hn with
  | var hname => exact ⟨_, head_of_name? hname ▸ h.head⟩
  | operand hc _ ih => exact ih (h.operand hc)

theorem ShareBelow.lt_of_mentions (h : ShareBelow M t) (hk : Mentions (sharedName k) t) :
    k < M := by
  rcases Everywhere.of_mentions h hk with ⟨sort, hbelow⟩
  exact hbelow k sort rfl

theorem Everywhere.mono {K : Head → Prop} (h : Everywhere H t) (hHK : ∀ hd, H hd → K hd) :
    Everywhere K t := by
  induction h with
  | intro hhead _ ih => exact .intro (hHK _ hhead) ih

theorem ShareBelow.mono {M' : Nat} (h : ShareBelow M t) (hM : M ≤ M') : ShareBelow M' t :=
  Everywhere.mono h fun _ hhead k sort heq => (hhead k sort heq).trans_le hM

theorem sharedHead_inj {j : Nat} (h : sharedHead k sort = sharedHead j sort') : k = j := by
  have hpayload := congrArg Head.payload h
  exact sharedName_inj (by simpa [sharedHead] using hpayload)

theorem lt_of_sharedHead_eq {j : Nat} (hk : k < M) (h : sharedHead k sort = sharedHead j sort') :
    j < M :=
  sharedHead_inj h ▸ hk

theorem Written.shareBelow (hw : Written A t r) (hA : ∀ k u, (k, u) ∈ A → k < M)
    (ht : ShareBelow M t) : ShareBelow M r :=
  hw.everywhere (fun k u hk _ _ _ heq => lt_of_sharedHead_eq (hA k u hk) heq) ht

theorem lt_of_op_ne_var {h : Head} (hop : h.op ≠ .var) (M k : Nat) (sort : TermSort)
    (heq : h = sharedHead k sort) : k < M :=
  absurd (congrArg Head.op heq) hop

theorem Named.shareBelow {N : Nat} (h : Named P N ds A M) (hP : ∀ t, P t → ShareBelow N t) :
    ∀ d ∈ ds, ShareBelow M d := by
  refine h.everywhere (fun t ht => (hP t ht).mono h.le) (fun _ hk _ _ _ heq => ?_) ?_ ?_
  · exact lt_of_sharedHead_eq hk heq
  · exact lt_of_op_ne_var (by simp) M
  · exact lt_of_op_ne_var (by simp) M

end Term

open Term

/-- The environments differ at variables for shared nodes with numbers from `N` on. -/
def Env.AgreeBelow {V : Type} (N : Nat) : Env V → Env V → Prop :=
  Env.Agree fun n => ∀ k, N ≤ k → n ≠ sharedName k

theorem Env.AgreeBelow.mono {V : Type} {N N' : Nat} {E E' : Env V} (h : Env.AgreeBelow N' E E')
    (hN : N ≤ N') : Env.AgreeBelow N E E' :=
  Env.Agree.mono h fun _ hn k hk => hn k (hN.trans hk)

namespace Reading

variable {R : Reading} {E E' : Env R.Value} {A : List (Nat × Term)} {t r d : Term} {k N M : Nat}

theorem agree_of_shareBelow (ht : ShareBelow M t) (h : Env.AgreeBelow M E E') :
    Env.Agree (Mentions · t) E E' := by
  refine Env.Agree.mono h fun n hn k hk heq => ?_
  have hlt := ht.lt_of_mentions (heq ▸ hn)
  omega

/-- What becomes of a term means what the term means, as a formula or as a value. -/
structure Means (R : Reading) (E : Env R.Value) (t r : Term) : Prop where
  holds : t.sort = .formula → (R.Holds r E ↔ R.Holds t E)
  values : t.sort ≠ .formula → R.values E r = R.values E t

/-- The variable with the number means what the node means. -/
structure Stands (R : Reading) (E : Env R.Value) (k : Nat) (t : Term) : Prop where
  truth : t.sort = .formula → (E.truth (sharedName k) ↔ R.Holds t E)
  value : t.sort ≠ .formula → [E.value (sharedName k)] = R.values E t

theorem tuple_of_written (hA : ∀ k u, (k, u) ∈ A → u.isShareable = true) (hw : Written A t r) :
    (r.op = .tuple ↔ t.op = .tuple) ∧
      (t.op = .tuple → r.children.length = t.children.length) := by
  rcases hw.cases with ⟨k, hk, hv⟩ | hr
  · have hvar : r.op = .var := op_of_name? hv.name?
    have htuple : t.op ≠ .tuple := fun heq => by
      have hshare := hA k t hk
      simp [isShareable, heq] at hshare
    exact ⟨by simp [hvar, htuple], fun heq => absurd heq htuple⟩
  · refine ⟨by rw [hr.op_eq], fun heq => ?_⟩
    exact (hr.operands (by simp [heq])).length_eq.symm

theorem indexArity_of_written (hA : ∀ k u, (k, u) ∈ A → u.isShareable = true)
    {cs es : List Term} (h : Forall₂ (Written A) cs es) :
    indexArity es = indexArity cs := by
  cases h with
  | nil => rfl
  | cons _ h =>
    cases h with
    | nil => rfl
    | @cons c e _ _ hw _ =>
      -- Only the second operand counts, and it keeps its width.
      rcases tuple_of_written hA hw with ⟨hop, hlen⟩
      by_cases htuple : c.op = .tuple
      · simp [indexArity, htuple, hop.mpr htuple, hlen htuple]
      · simp [indexArity, htuple, mt hop.mp htuple]

theorem map_eq_of_forall₂ {α β γ : Type} {f : α → γ} {g : β → γ} {as : List α} {bs : List β}
    (h : Forall₂ (fun a b => g b = f a) as bs) : bs.map g = as.map f := by
  induction h with
  | nil => rfl
  | cons hab _ ih => rw [map_cons, map_cons, hab, ih]

/-- A term means the same as what it is written as, wherever the variables mean
    what they stand for. -/
theorem means_of_written (hA : ∀ k u, (k, u) ∈ A → R.Stands E k u ∧ u.isShareable = true)
    (hw : Written A t r) (ht : WellSorted t) : R.Means E t r := by
  induction hw with
  | name hk hv =>
    refine ⟨fun hs => ?_, fun hs => ?_⟩
    · rw [holds_var hv.name?]
      exact (hA _ _ hk).1.truth hs
    · rw [values_var hv.name?]
      exact (hA _ _ hk).1.value hs
  | @node t r hhead hall hlen hcs ih =>
    -- Nothing below a quantifier is named.
    by_cases hop : t.op = .all
    · rw [hall hop]
      exact ⟨fun _ => Iff.rfl, fun _ => rfl⟩
    have hwritten : Forall₂ (Written A) t.children r.children :=
      forall₂_iff_zip.mpr ⟨hlen hop, fun {c e} hce => hcs hop (c, e) hce⟩
    have hmeans : ∀ {c e}, (c, e) ∈ t.children.zip r.children → R.Means E c e :=
      fun {c e} hce => ih hop (c, e) hce (ht.operand hop (of_mem_zip hce).1)
    have hop' : r.op = t.op := congrArg Head.op hhead
    have hname' : r.name? = t.name? := name?_eq_of_head hhead
    cases hname : t.name? with
    | some n =>
      rw [hname] at hname'
      refine ⟨fun _ => ?_, fun _ => ?_⟩
      · rw [holds_var hname', holds_var hname]
      · rw [values_var hname', values_var hname]
    | none =>
      rw [hname] at hname'
      cases ht with
      | quantifier hall => exact absurd hall hop
      | connective hconn hsort hsorts _ =>
        -- A connective looks at what its operands state, and they are formulas.
        have htruths : r.children.map (R.Holds · E) = t.children.map (R.Holds · E) :=
          map_eq_of_forall₂ (forall₂_iff_zip.mpr ⟨hlen hop, fun {c e} hce =>
            propext ((hmeans hce).holds (hsorts c (of_mem_zip hce).1))⟩)
        refine ⟨fun _ => ?_, fun hne => absurd hsort hne⟩
        rw [holds_connective (hop'.symm ▸ hconn), holds_connective hconn, hop', htruths]
      | operator _ hconn hsorts _ =>
        -- Any other operator looks at the values of its operands.
        have hvalues : r.children.map (R.values E) = t.children.map (R.values E) :=
          map_eq_of_forall₂ (forall₂_iff_zip.mpr ⟨hlen hop, fun {c e} hce =>
            (hmeans hce).values (hsorts c (of_mem_zip hce).1)⟩)
        have hargs : r.children.flatMap (R.values E) = t.children.flatMap (R.values E) :=
          congrArg List.flatten hvalues
        have hindex := indexArity_of_written (fun k u hk => (hA k u hk).2) hwritten
        refine ⟨fun _ => ?_, fun _ => ?_⟩
        · rw [holds_atom hname' (hop'.symm ▸ hop) (hop'.symm ▸ hconn),
            holds_atom hname hop hconn, hhead, hindex, hargs]
        · by_cases htuple : t.op = .tuple
          · rw [values_tuple (hop'.trans htuple), values_tuple htuple, hargs]
          · rw [values_operator hname' (hop'.symm ▸ htuple), values_operator hname htuple,
              hhead, hindex, hargs]

theorem exists_value_of_isShareable (h : t.isShareable = true) (E : Env R.Value) :
    ∃ v, R.values E t = [v] := by
  simp only [isShareable, Bool.and_eq_true, Bool.not_eq_true', bne_iff_ne] at h
  exact ⟨_, values_operator (name?_of_op_ne fun hop => by simp [hop, Op.isLeaf] at h) h.2 E⟩

theorem holds_defines_formula (hd : Defines k r d) (hr : r.sort = .formula) (E : Env R.Value) :
    R.Holds d E ↔ (E.truth (sharedName k) ↔ R.Holds r E) := by
  rcases hd.sides with ⟨v, hv, hsides⟩
  have hop : d.op = .iff := by simp [op, hd.head, hr, TermSort.isFormula]
  rw [holds_connective (by rw [hop]; rfl), hop, hsides]
  simp only [map_cons, map_nil, Op.joins, holds_var hv.name?]

theorem holds_defines_value (hd : Defines k r d) (hr : r.sort ≠ .formula)
    (hshare : r.isShareable = true) (E : Env R.Value) :
    R.Holds d E ↔ [E.value (sharedName k)] = R.values E r := by
  rcases hd.sides with ⟨v, hv, hsides⟩
  rcases exists_value_of_isShareable hshare E with ⟨x, hx⟩
  have hhead : d.head = { op := .eq, sort := .formula } := by
    simp [hd.head, hr, TermSort.isFormula]
  have hop : d.op = .eq := congrArg Head.op hhead
  have hname : d.name? = none := by rw [name?, hop]
  rw [holds_atom hname (by simp [hop]) (by rw [hop]; rfl), hhead, hsides]
  simp [values_var hv.name?, hx, R.states_eq]

theorem isShareable_of_head (h : r.head = t.head) : r.isShareable = t.isShareable := by
  rw [isShareable, isShareable, op, op, h]

variable {P : Term → Prop} {ds : List Term}

theorem stands_of_holds (h : Named P N ds A M) (hP : ∀ t, P t → WellSorted t)
    (hE : ∀ d ∈ ds, R.Holds d E) : ∀ k t, (k, t) ∈ A → R.Stands E k t := by
  induction h with
  | none => simp
  | @define ds A M M' k t r d h _ _ ht hshare hr hd ih =>
    -- By induction the earlier variables mean what they stand for, so the right side
    -- of the latest definition means what its node means.
    have hold := ih fun e he => hE e (mem_append_left _ he)
    have hmeans : R.Means E t r :=
      means_of_written (fun j u hj => ⟨hold j u hj, (h.of_mem hj).2.2.2⟩) hr.written (hP t ht)
    have hholds : R.Holds d E := hE d (mem_append_right _ (mem_singleton_self d))
    intro j u hj
    rcases mem_append.mp hj with hj | hj
    · exact hold j u hj
    · rw [mem_singleton, Prod.mk.injEq] at hj
      rw [hj.1, hj.2]
      refine ⟨fun hs => ?_, fun hs => ?_⟩
      · have hiff := (holds_defines_formula hd (hr.sort_eq.trans hs) E).mp hholds
        exact hiff.trans (hmeans.holds hs)
      · have hne : r.sort ≠ .formula := hr.sort_eq.symm ▸ hs
        have hr' : r.isShareable = true := (isShareable_of_head hr.head).trans hshare
        exact ((holds_defines_value hd hne hr' E).mp hholds).trans (hmeans.values hs)

theorem exists_env_of_named (h : Named P N ds A M) (hP : ∀ t, P t → ShareBelow N t)
    (E : Env R.Value) : ∃ E', Env.AgreeBelow N E E' ∧ ∀ d ∈ ds, R.Holds d E' := by
  induction h with
  | none => exact ⟨E, Env.Agree.refl _ E, by simp⟩
  | @define ds A M M' k t r d h hle hlt ht hshare hr hd ih =>
    rcases ih with ⟨E₁, hagree, hholds⟩
    have hN : N ≤ M := h.le
    have hr' : r.isShareable = true := (isShareable_of_head hr.head).trans hshare
    rcases exists_value_of_isShareable hr' E₁ with ⟨x, hx⟩
    -- The new variable gets the meaning that its node has so far.
    have hnew : Env.AgreeBelow k E₁ (E₁.assign (sharedName k) x (R.Holds r E₁)) :=
      Env.agree_assign (fun hn => hn k le_rfl rfl) E₁ x _
    have hbelow : ShareBelow M r := hr.written.shareBelow (fun j u hj => (h.of_mem hj).2.1)
      ((hP t ht).mono hN)
    refine ⟨_, Env.Agree.trans hagree (hnew.mono (hN.trans hle)), fun e he => ?_⟩
    rcases mem_append.mp he with he | he
    · -- Earlier definitions do not mention the new variable.
      have hebelow := h.shareBelow hP e he
      exact (holds_congr e (agree_of_shareBelow hebelow (hnew.mono hle))).mp (hholds e he)
    · rw [mem_singleton.mp he]
      have hragree := agree_of_shareBelow hbelow (hnew.mono hle)
      by_cases hs : r.sort = .formula
      · rw [holds_defines_formula hd hs, ← holds_congr r hragree]
        simp [Env.assign]
      · rw [holds_defines_value hd hs hr', ← values_congr r hragree, hx]
        simp [Env.assign]

theorem holds_of_isTrue (h : t.isTrue = true) (E : Env R.Value) : R.Holds t E := by
  have hhead : t.head = { op := .lit, sort := .formula, payload := some (.bool true) } := by
    simpa [Term.isTrue] using h
  have hop : t.op = .lit := congrArg Head.op hhead
  have hname : t.name? = none := by rw [name?, hop]
  rw [holds_atom hname (by simp [hop]) (by rw [hop]; rfl), hhead]
  exact R.states_true _ _

end Reading

namespace Term

/-- The formula is the conjunction of the terms. -/
structure Conjoins (ts : List Term) (f : Term) : Prop where
  holds_iff : ∀ (R : Reading) (E : Env R.Value), R.Holds f E ↔ ∀ t ∈ ts, R.Holds t E
  everywhere : ∀ {H : Head → Prop}, H { op := .and, sort := .formula } →
    H { op := .lit, sort := .formula, payload := some (.bool true) } →
    (∀ t ∈ ts, Everywhere H t) → Everywhere H f

/-- What is sent in place of a term: definitions of variables with numbers from `N`
    to `M`, and a formula that means under them what the term means. -/
structure Unfolds (N M : Nat) (t : Term) (ds : List Term) (q : Term) : Prop where
  le : N ≤ M
  definitions_below : ∀ d ∈ ds, ShareBelow M d
  below : ShareBelow M q
  holds_iff : ∀ (R : Reading) (E : Env R.Value), (∀ d ∈ ds, R.Holds d E) →
    (R.Holds q E ↔ R.Holds t E)
  exists_env : ∀ (R : Reading) (E : Env R.Value),
    ∃ E', Env.AgreeBelow N E E' ∧ ∀ d ∈ ds, R.Holds d E'

theorem Unfolds.mono {N M M' : Nat} {t q : Term} {ds : List Term} (h : Unfolds N M t ds q)
    (hM : M ≤ M') : Unfolds N M' t ds q :=
  ⟨h.le.trans hM, fun d hd => (h.definitions_below d hd).mono hM, h.below.mono hM, h.holds_iff,
    h.exists_env⟩

end Term

namespace Theory

variable {th : Theory} {W : Stock}

theorem builds_conjunction (hth : th.Advances) {ts : List Term} (hts : ∀ t ∈ ts, t ∈ W.terms) :
    Builds W (th.and ts) fun _ f => Conjoins ts f := by
  have hsub : ts.filter (!·.isTrue) ⊆ ts := filter_sublist.subset
  have hkept : ∀ (R : Reading) (E : Env R.Value),
      (∀ t ∈ ts.filter (!·.isTrue), R.Holds t E) ↔ ∀ t ∈ ts, R.Holds t E := by
    refine fun R E => ⟨fun h t ht => ?_, fun h t ht => h t (hsub ht)⟩
    by_cases htrue : t.isTrue = true
    · exact Reading.holds_of_isTrue htrue E
    · exact h t (mem_filter.mpr ⟨ht, by simp [htrue]⟩)
  unfold Theory.and
  -- Nothing is left, one operand is left, or several are.
  split
  · next hnil =>
    refine (Vouch.builds_make (by simp) _ []).mono fun X f _ hf => ⟨fun R E => ?_, ?_⟩
    · have htrue : f.isTrue = true := by simp [Term.isTrue, hf.2.1]
      rw [← hkept, hnil]
      simp [Reading.holds_of_isTrue htrue E]
    · intro H _ htrue _
      exact .intro (hf.2.1 ▸ htrue) (by simp [hf.2.2])
  · next t hone =>
    refine leaves_pure ⟨fun R E => ?_, fun _ _ h => h t (hsub (by simp [hone]))⟩
    rw [← hkept, hone]
    simp
  · refine (builds_make hth (fun t ht => hts t (hsub ht)) .and .formula).mono
      fun X f _ hf => ⟨fun R E => ?_, ?_⟩
    · have hop : f.op = .and := congrArg Head.op hf.2.1
      rw [← hkept, Reading.holds_connective (by rw [hop]; rfl), hop, hf.2.2]
      simp only [Op.joins, forall_mem_map]
    · intro H hand _ h
      refine .intro (hf.2.1 ▸ hand) fun c hc => h c (hsub ?_)
      rwa [hf.2.2] at hc

/-- Removing the sharing of a formula unfolds it, and adds no heads but those of
    definitions. -/
theorem builds_unshare (hth : th.Advances) {t : Term} (ht : t ∈ W.terms)
    (hsort : t.sort = .formula) (hsorted : WellSorted t) (hbelow : ShareBelow W.names t)
    {H : Head → Prop} (hH : Everywhere H t) (hvar : ∀ k sort, H (sharedHead k sort))
    (hiff : H { op := .iff, sort := .formula }) (heq : H { op := .eq, sort := .formula }) :
    Builds W (th.unshare t) fun X u =>
      Unfolds W.names X.names t u.definitions (u.termOr t) ∧
        ∀ f ∈ u.definitions ++ [u.termOr t], f ∈ X.terms ∧ Everywhere H f := by
  have hroots : ∀ u ∈ [t], u ∈ W.terms ∧
      (WellSorted u ∧ ShareBelow W.names u ∧ Everywhere H u) := by
    simp [ht, hsorted, hbelow, hH]
  refine (builds_unshareAll hth (fun u hu hop c hc => ⟨hu.1.operand hop hc,
    Everywhere.operand hu.2.1 hc, hu.2.2.operand hc⟩) hroots).mono fun X u _ hu => ?_
  rcases hu with ⟨A, hds, hmem, hwritten⟩
  rcases u with ⟨terms, ds, as⟩
  cases hwritten with
  | cons hw hnil =>
    cases hnil
    have hnumbers : ∀ k u, (k, u) ∈ A → k < X.names := fun k u hk =>
      (hds.named.of_mem hk).2.1
    have hparts : ∀ u, WellSorted u ∧ ShareBelow W.names u ∧ Everywhere H u →
        ShareBelow W.names u := fun u hu => hu.2.1
    refine ⟨⟨hds.named.le, hds.named.shareBelow hparts,
      hw.shareBelow hnumbers (hbelow.mono hds.named.le), fun R E hE => ?_,
      fun R E => Reading.exists_env_of_named hds.named hparts E⟩, ?_⟩
    · -- Where the definitions hold, the formula means what the term means.
      have hstands := Reading.stands_of_holds hds.named (fun u hu => hu.1) hE
      exact (Reading.means_of_written (fun k u hk =>
        ⟨hstands k u hk, (hds.named.of_mem hk).2.2.2⟩) hw hsorted).holds hsort
    · intro f hf
      rcases mem_append.mp hf with hf | hf
      · exact ⟨hds.members f hf, hds.named.everywhere (fun u hu => hu.2.2)
          (fun k _ => hvar k) hiff heq f hf⟩
      · rw [mem_singleton.mp hf]
        exact ⟨hmem _ mem_cons_self, hw.everywhere (fun k _ _ => hvar k) hH⟩

end Theory

end Vouch
