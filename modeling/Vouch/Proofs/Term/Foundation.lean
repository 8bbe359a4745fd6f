import Mathlib.Data.Set.Lattice
import Vouch.Proofs.Term.Background
import Vouch.Proofs.Term.Parallel
import Vouch.Proofs.Term.Placement

/-!
# A Stock for the Axioms

The axioms of the standard theory are not made by the supply that makes a condition. For
a statement about a condition together with its axioms they have to be members of one
stock, which is where the condition is then built on.

## Main definitions

* `Stock.placeholders`: Placeholders for all nodes of the other families.

## Theorems

* `Theory.rests_standard`: The axioms are those of the families.
* `exists_foundation`: There is a stock with all axioms, and it is layered.
-/

namespace Vouch

open List Term Theory

/-- The names in axioms are some letters, and numbered ones for indices. -/
inductive AxiomName : String → Prop
  | letter {n : String} : n ∈ ["a", "b", "m", "v"] → AxiomName n
  | index {base : String} : base ∈ ["i", "j"] → (k : Nat) → AxiomName (base ++ toString k)

theorem renamedBinder_ne_empty (n : String) (k : Nat) : renamedBinder n k ≠ "" :=
  (plainName_ne_renamedBinder (by decide)).symm

/-- Axioms have variables for values only, and their names are not empty. -/
def axiomSpelling : Spelling where
  names l n := l = .value ∧ n ≠ ""
  unique _ _ _ h h' := h.1.trans h'.1.symm
  renamed n k h := ⟨h.1, renamedBinder_ne_empty n k⟩

/-- A node that no axiom has. -/
def placeholder (id : NodeId) : Term :=
  .node id { op := .var, sort := .value, payload := some (.name "") } [] []

namespace Stock

variable {f : Nat} {t : Term}

theorem closed_placeholders {c : Term}
    (ht : t ∈ {t | ∃ id : NodeId, id.family ≠ f ∧ t = placeholder id}) (hc : c ∈ t.children) :
    c ∈ {t | ∃ id : NodeId, id.family ≠ f ∧ t = placeholder id} := by
  rcases ht with ⟨id, _, rfl⟩
  exact absurd hc not_mem_nil

theorem identified_placeholders {u : Term}
    (ht : t ∈ {t | ∃ id : NodeId, id.family ≠ f ∧ t = placeholder id})
    (hu : u ∈ {t | ∃ id : NodeId, id.family ≠ f ∧ t = placeholder id}) (h : t.ident = u.ident) :
    t = u := by
  rcases ht with ⟨i, _, rfl⟩
  rcases hu with ⟨j, _, rfl⟩
  have hij : i = j := h
  rw [hij]

/-- Placeholders for all nodes of the other families. -/
def placeholders (f : Nat) : Stock where
  terms := {t | ∃ id : NodeId, id.family ≠ f ∧ t = placeholder id}
  names := 0
  closed _ ht _ hc := closed_placeholders ht hc
  identified _ ht _ hu h := identified_placeholders ht hu h

theorem layered_placeholders (f : Nat) : (placeholders f).Layered := by
  refine ⟨?_, ?_⟩
  · rintro _ ⟨id, _, rfl⟩
    exact .of_leaf rfl rfl
  · rintro _ ⟨id, _, rfl⟩ a ha
    exact absurd ha not_mem_nil

theorem fits_placeholders (f : Nat) : (placeholders f).Fits { family := f } := by
  refine ⟨?_, rfl⟩
  rintro _ ⟨id, hid, rfl⟩ hfam
  exact absurd hfam hid

theorem family_of_spelled {X : Stock} (hX : placeholders f ≤ X) (ht : t ∈ X.terms)
    (hspelled : Spelled axiomSpelling t) : t.ident.family = f := by
  by_contra hfam
  have hplace : placeholder t.ident ∈ X.terms := hX.1 ⟨t.ident, hfam, rfl⟩
  have heq : placeholder t.ident = t := X.identified _ hplace t ht rfl
  rw [← heq] at hspelled
  exact (hspelled.names rfl).2 rfl

end Stock

/-! ### The axioms are right -/

/-- The first axiom of map update. -/
def readBackAxiom (m v updated : Term) (is : List Term) : Fresh Term := do
  let back ← plainSelect updated is
  plainAll (m :: v :: is) (← plain .eq .formula [back, v])

/-- The second axiom of map update. -/
def readOtherAxiom (m v updated : Term) (is js : List Term) : Fresh Term := do
  let differences ← (is.zip js).mapM fun p => plain .neq .formula [p.1, p.2]
  let differs ← plain .or .formula differences
  let other ← plainSelect updated js
  let old ← plainSelect m js
  let unchanged ← plain .eq .formula [other, old]
  plainAll (m :: v :: (is ++ js)) (← plain .implies .formula [differs, unchanged])

theorem mapUpdateAxioms_eq (arity : Nat) : mapUpdateAxioms arity = (do
    let m ← Term.var "m" .value
    let v ← Term.var "v" .value
    let is ← indexVars "i" arity
    let js ← indexVars "j" arity
    let index ← plain .tuple .value is
    let updated ← plain .mapUpdate .value [m, index, v]
    let same ← readBackAxiom m v updated is
    let other ← readOtherAxiom m v updated is js
    return [same, other]) :=
  rfl

/-- What is known of terms for their layers is kept up by the nodes of axioms. -/
structure AxiomUpkeep {World : Type} [Preorder World] (L : Coupling World) (F : String → Prop)
    (R : Layer → World → Term → Prop) : Prop where
  theory : Theory.empty.Upholds L F R
  var : ∀ {w n sort}, AxiomName n → sort.layer = .value →
    L.Copies w (Term.var n sort) (Term.var n sort) (R .value)
  all : ∀ {w vs b}, vs ≠ [] → (∀ v ∈ vs, R .value w v ∧ ∃ n, v.name? = some n) →
    R .formula w b →
    L.Copies w (plainAll vs b) (plainAll (vs.map L.copy) (L.copy b)) (R .formula)

section Axioms

variable {World : Type} [Preorder World] {L : Coupling World} {F : String → Prop}
  {R : Layer → World → Term → Prop} {w : World} (hR : AxiomUpkeep L F R)
include hR

variable {sort : TermSort} {m v updated : Term} {is js : List Term}

theorem copies_axiomVar {n : String} (hn : AxiomName n) (hsort : sort.layer = .value) :
    L.Copies w (Term.var n sort) (Term.var n sort) fun u t =>
      R .value u t ∧ ∃ n, t.name? = some n := by
  refine L.makes_mono ((hR.var hn hsort).and_gives (gives_bareVar n sort)) fun _ _ _ _ ht => ?_
  exact ⟨ht.1, ht.2.1, n, ht.2.2.name?⟩

theorem copies_plain (op : Op) {k l : Layer} (ts : List Term) (hop : op.Maps sort k l)
    (hts : ∀ t ∈ ts, R k w t) :
    L.Copies w (plain op sort ts) (plain op sort (ts.map L.copy)) (R l) :=
  hR.theory.many hop hts

theorem copies_plainSelect (hm : R .value w m) (his : ∀ i ∈ is, R .value w i) :
    L.Copies w (plainSelect m is) (plainSelect (L.copy m) (is.map L.copy)) (R .value) :=
  hR.theory.select hm his rfl

theorem copies_holds {t : Term} (ht : R .value w t) :
    L.Copies w (holds t) (holds (L.copy t)) (R .formula) := by
  refine L.step (hR.theory.boolLit true) fun _ b hwu hb => ?_
  have ht' := hR.theory.mono hwu ht
  exact copies_plain hR .eq [t, b] ⟨rfl, rfl, rfl, by simp⟩ (by simp [ht', hb])

theorem copies_literalAxiom : L.Copies w literalAxiom literalAxiom (R .formula) := by
  unfold literalAxiom
  refine L.step (hR.theory.boolLit true) fun u₁ a _ ha => ?_
  refine L.step (hR.theory.boolLit false) fun u₂ b h₂ hb => ?_
  exact copies_plain hR .neq [a, b] ⟨rfl, rfl, rfl, by simp⟩ (by simp [hR.theory.mono h₂ ha, hb])

theorem copies_readBack
    (hvars : ∀ t ∈ m :: v :: is, R .value w t ∧ ∃ n, t.name? = some n)
    (hupdated : R .value w updated) :
    L.Copies w (readBackAxiom m v updated is)
      (readBackAxiom (L.copy m) (L.copy v) (L.copy updated) (is.map L.copy)) (R .formula) := by
  have hmono := @hR.theory.mono
  have hv : R .value w v := (hvars v (by simp)).1
  unfold readBackAxiom
  refine L.step (copies_plainSelect hR hupdated fun i hi => (hvars i (by simp [hi])).1)
    fun u₁ back h₁ hback => ?_
  refine L.step (copies_plain hR .eq [back, v] ⟨rfl, rfl, rfl, by simp⟩ (by simp [hback, hmono h₁ hv]))
    fun u₂ eq h₂ heq => ?_
  exact hR.all (by simp) (fun t ht => ⟨hmono (h₁.trans h₂) (hvars t ht).1, (hvars t ht).2⟩) heq

theorem copies_differs (his : ∀ i ∈ is, R .value w i) (hjs : ∀ j ∈ js, R .value w j) :
    L.Makes w ((is.zip js).mapM fun p => plain .neq .formula [p.1, p.2])
      (((is.map L.copy).zip (js.map L.copy)).mapM fun p => plain .neq .formula [p.1, p.2])
      fun u ts ts' => ts' = ts.map L.copy ∧ ∀ t ∈ ts, R .formula u t := by
  rw [zip_map, mapM_map]
  refine L.makes_mapM (R := R .formula) (fun _ _ _ => hR.theory.mono) fun p hp u hwu => ?_
  rcases of_mem_zip hp with ⟨hi, hj⟩
  exact copies_plain hR .neq [p.1, p.2] ⟨rfl, rfl, rfl, by simp⟩
    (by simp [hR.theory.mono hwu (his _ hi), hR.theory.mono hwu (hjs _ hj)])

theorem copies_readOther
    (hvars : ∀ t ∈ m :: v :: (is ++ js), R .value w t ∧ ∃ n, t.name? = some n)
    (hupdated : R .value w updated) :
    L.Copies w (readOtherAxiom m v updated is js)
      (readOtherAxiom (L.copy m) (L.copy v) (L.copy updated) (is.map L.copy) (js.map L.copy))
      (R .formula) := by
  have hmono := @hR.theory.mono
  have hm : R .value w m := (hvars m (by simp)).1
  have hjs : ∀ j ∈ js, R .value w j := fun j hj => (hvars j (by simp [hj])).1
  unfold readOtherAxiom
  refine L.makes_bind (copies_differs hR (fun i hi => (hvars i (by simp [hi])).1) hjs) ?_
  rintro u₁ ds _ h₁ ⟨rfl, hds⟩
  refine L.step (copies_plain hR .or ds ⟨rfl, rfl, rfl, by simp⟩ hds) fun u₂ differs h₂ hdiffers => ?_
  have h₀₂ := h₁.trans h₂
  refine L.step (copies_plainSelect hR (hmono h₀₂ hupdated) fun j hj => hmono h₀₂ (hjs j hj))
    fun u₃ other h₃ hother => ?_
  have h₀₃ := h₀₂.trans h₃
  refine L.step (copies_plainSelect hR (hmono h₀₃ hm) fun j hj => hmono h₀₃ (hjs j hj))
    fun u₄ old h₄ hold => ?_
  refine L.step (copies_plain hR .eq [other, old] ⟨rfl, rfl, rfl, by simp⟩
    (by simp [hmono h₄ hother, hold])) fun u₅ unchanged h₅ hunchanged => ?_
  have hdiffers := hmono (h₃.trans (h₄.trans h₅)) hdiffers
  refine L.step (copies_plain hR .implies [differs, unchanged] ⟨rfl, rfl, rfl, by simp⟩
    (by simp [hdiffers, hunchanged])) fun u₆ body h₆ hbody => ?_
  have h := h₀₃.trans (h₄.trans (h₅.trans h₆))
  have hall := hR.all (by simp) (fun t ht => ⟨hmono h (hvars t ht).1, (hvars t ht).2⟩) hbody
  rwa [map_cons, map_cons, map_append] at hall

theorem copies_describing (hs : sort.layer = .value) {op : Op}
    (hop : op.Maps .bool .value .value) {description : Term → Term → Fresh Term}
    (hdescription : ∀ {u : World} {a b : Term}, R .value u a → R .value u b →
      L.Copies u (description a b) (description (L.copy a) (L.copy b)) (R .formula)) :
    L.Copies w (describing op sort description) (describing op sort description) (R .formula) := by
  have hmono := @hR.theory.mono
  unfold describing
  refine L.step (copies_axiomVar hR (.letter (by simp)) hs) fun u₁ a h₁ ha => ?_
  refine L.step (copies_axiomVar hR (.letter (by simp)) hs) fun u₂ b h₂ hb => ?_
  rcases ha with ⟨ha, hna⟩
  rcases hb with ⟨hb, hnb⟩
  have ha := hmono h₂ ha
  refine L.step (copies_plain hR op [a, b] hop (by simp [ha, hb])) fun u₃ v h₃ hv => ?_
  refine L.step (copies_holds hR hv) fun u₄ lhs h₄ hlhs => ?_
  have ha := hmono (h₃.trans h₄) ha
  have hb := hmono (h₃.trans h₄) hb
  refine L.step (hdescription ha hb) fun u₅ rhs h₅ hrhs => ?_
  refine L.step (copies_plain hR .iff [lhs, rhs] ⟨rfl, rfl, rfl, by simp⟩
    (by simp [hmono h₅ hlhs, hrhs])) fun u₆ body h₆ hbody => ?_
  have h := h₅.trans h₆
  exact hR.all (by simp) (by simp [hmono h ha, hmono h hb, hna, hnb]) hbody

theorem copies_reflectAxiom {op atom : Op} (hop : op ∈ [Op.tlt, .teq, .teqInt, .teqBool])
    (hatom : atom ∈ [Op.lt, .eq]) :
    L.Copies w (reflectAxiom op atom) (reflectAxiom op atom) (R .formula) := by
  have hmaps : op.Maps .bool .value .value := by
    simp only [mem_cons, not_mem_nil, or_false] at hop
    rcases hop with rfl | rfl | rfl | rfl <;> exact ⟨rfl, rfl, rfl, by simp⟩
  have hatoms : atom.Maps .formula .value .formula := by
    simp only [mem_cons, not_mem_nil, or_false] at hatom
    rcases hatom with rfl | rfl <;> exact ⟨rfl, rfl, rfl, by simp⟩
  rw [reflectAxiom_eq]
  exact copies_describing hR rfl hmaps fun {_ a b} ha hb =>
    copies_plain hR atom [a, b] hatoms (by simp [ha, hb])

theorem copies_nandAxiom : L.Copies w nandAxiom nandAxiom (R .formula) := by
  rw [nandAxiom_eq]
  refine copies_describing hR rfl ⟨rfl, rfl, rfl, by simp⟩ fun ha hb => ?_
  refine L.step (copies_holds hR ha) fun u₁ p h₁ hp => ?_
  refine L.step (copies_holds hR (hR.theory.mono h₁ hb)) fun u₂ q h₂ hq => ?_
  refine L.step (copies_plain hR .and [p, q] ⟨rfl, rfl, rfl, by simp⟩
    (by simp [hR.theory.mono h₂ hp, hq])) fun u₃ both h₃ hboth => ?_
  exact copies_plain hR .not [both] ⟨rfl, rfl, rfl, by simp⟩ (by simp [hboth])

theorem copies_indexVars {base : String} (hbase : base ∈ ["i", "j"]) (arity : Nat) :
    L.Makes w (indexVars base arity) (indexVars base arity) fun u ts ts' =>
      ts' = ts.map L.copy ∧ ∀ t ∈ ts, R .value u t ∧ ∃ n, t.name? = some n := by
  refine L.makes_mapM (fun _ _ _ huv h => ?_) fun k _ _ _ => ?_
  · exact ⟨hR.theory.mono huv h.1, h.2⟩
  · exact copies_axiomVar hR (.index hbase k) rfl

theorem copies_mapUpdateAxioms (arity : Nat) :
    L.Makes w (mapUpdateAxioms arity) (mapUpdateAxioms arity) fun u as as' =>
      as' = as.map L.copy ∧ ∀ a ∈ as, R .formula u a := by
  have hmono := @hR.theory.mono
  rw [mapUpdateAxioms_eq]
  refine L.step (copies_axiomVar hR (.letter (by simp)) rfl) fun u₁ m h₁ hm => ?_
  refine L.step (copies_axiomVar hR (.letter (by simp)) rfl) fun u₂ v h₂ hv => ?_
  refine L.makes_bind (copies_indexVars hR (by simp) arity) ?_
  rintro u₃ is _ h₃ ⟨rfl, his⟩
  refine L.makes_bind (copies_indexVars hR (by simp) arity) ?_
  rintro u₄ js _ h₄ ⟨rfl, hjs⟩
  have hm₄ := hmono (h₂.trans (h₃.trans h₄)) hm.1
  have hv₄ := hmono (h₃.trans h₄) hv.1
  have hvars : ∀ t ∈ m :: v :: is, R .value u₄ t ∧ ∃ n, t.name? = some n := by
    simpa [hm₄, hv₄, hm.2, hv.2] using fun t ht => ⟨hmono h₄ (his t ht).1, (his t ht).2⟩
  refine L.step (copies_plain hR .tuple is ⟨rfl, rfl, rfl, by simp⟩
    fun i hi => (hvars i (by simp [hi])).1) fun u₅ index h₅ hindex => ?_
  refine L.step (hR.theory.mapUpdate (hmono h₅ hm₄) hindex (hmono h₅ hv₄))
    fun u₆ updated h₆ hupdated => ?_
  have h₄₆ := h₅.trans h₆
  refine L.step (copies_readBack hR (fun t ht => ⟨hmono h₄₆ (hvars t ht).1, (hvars t ht).2⟩)
    hupdated) fun u₇ same h₇ hsame => ?_
  have hvars' : ∀ t ∈ m :: v :: (is ++ js), R .value u₇ t ∧ ∃ n, t.name? = some n := by
    intro t ht
    have h := h₄₆.trans h₇
    rw [← cons_append, ← cons_append, mem_append] at ht
    rcases ht with ht | ht
    · exact ⟨hmono h (hvars t ht).1, (hvars t ht).2⟩
    · exact ⟨hmono h (hjs t ht).1, (hjs t ht).2⟩
  refine L.step (copies_readOther hR hvars' (hmono h₇ hupdated)) fun u₈ other h₈ hother => ?_
  exact L.makes_pure ⟨rfl, by simp [hmono h₈ hsame, hother]⟩

end Axioms

/-! ### The axioms of a family -/

theorem copies_familyBuilder {World : Type} [Preorder World] {L : Coupling World}
    {F : String → Prop} {R : Layer → World → Term → Prop} (hR : AxiomUpkeep L F R) (w : World)
    (f : Nat) : L.Makes w (familyBuilder f) (familyBuilder f) fun u as as' =>
      as' = as.map L.copy ∧ ∀ a ∈ as, R .formula u a := by
  have hone : ∀ {m : Fresh Term}, L.Copies w m m (R .formula) →
      L.Makes w (do return [← m]) (do return [← m]) fun u as as' =>
        as' = as.map L.copy ∧ ∀ a ∈ as, R .formula u a :=
    fun hm => L.step hm fun _ _ _ ha => L.makes_pure ⟨rfl, by simp [ha]⟩
  unfold familyBuilder
  split
  · exact hone (copies_reflectAxiom hR (by simp) (by simp))
  · exact hone (copies_reflectAxiom hR (by simp) (by simp))
  · exact hone (copies_reflectAxiom hR (by simp) (by simp))
  · exact hone (copies_reflectAxiom hR (by simp) (by simp))
  · exact hone (copies_nandAxiom hR)
  · exact hone (copies_literalAxiom hR)
  · exact copies_mapUpdateAxioms hR _

theorem leaves_familyBuilder {P : Placing} {W : Stock} (hP : P.Suits)
    (hnames : ∀ n, AxiomName n → P.names .value n) (f : Nat) :
    Leaves (P.Fits .empty) W (familyBuilder f) fun X as => ∀ a ∈ as, P.Right .formula X a := by
  have hR : AxiomUpkeep (.single (P.Fits .empty)) P.functions P.Right := by
    refine ⟨hP.upholds .empty, fun {_ n sort} hn hsort => Leaves.copies ?_,
      fun {_ vs b} hne hvs hb => Leaves.copies ?_⟩
    · exact (hP.leaves_named sort (hsort ▸ hnames n hn) (by simp)).mono fun _ _ _ ht => hsort ▸ ht.2
    · have hall : plainAll vs b = Theory.empty.all vs b := by
        unfold Theory.all
        rw [if_neg (by simpa using hne)]
        rfl
      rw [hall]
      exact hP.leaves_all hvs hb
  intro s hs
  rcases copies_familyBuilder hR W f s hs with ⟨X, hWX, hX, _, _, has⟩
  exact ⟨X, hWX, hX, has⟩

theorem Theory.rests_standard {A : Term → Prop} {W : Stock}
    (h : ∀ f, f ≠ 0 → ∀ a ∈ inFamily f (familyBuilder f), a ∈ W.terms ∧ A a) :
    standard.Rests A W := by
  refine ⟨fun e he cs => ?_, h 6 (by simp)⟩
  rcases schemas_standard e he with ⟨family, hfamily, hrun⟩
  exact ⟨_, hrun cs, h _ (hfamily _)⟩

theorem Theory.rests_empty (A : Term → Prop) (W : Stock) : Theory.empty.Rests A W :=
  ⟨by simp [Theory.empty], by simp [Theory.empty]⟩

/-! ### Relabelled axioms -/

theorem AxiomName.plainName {n : String} (h : AxiomName n) : PlainName n := by
  cases h with
  | letter hn =>
    simp only [mem_cons, not_mem_nil, or_false] at hn
    rcases hn with rfl | rfl | rfl | rfl <;> decide
  | index hbase k =>
    intro hinfix
    have hmem := hinfix.subset (a := '$') (by simp)
    rw [String.toList_append, mem_append] at hmem
    simp only [mem_cons, not_mem_nil, or_false] at hbase
    rcases hmem with hmem | hmem
    · rcases hbase with rfl | rfl <;> exact absurd hmem (by decide)
    · exact dollar_not_mem_toString k hmem

theorem Theory.relabel_inFamily {φ : Relabelling} {f : Nat} (h : ∀ i, φ.node ⟨f, i⟩ = ⟨f, i⟩) :
    (inFamily f (familyBuilder f)).map (relabel φ) = inFamily f (familyBuilder f) := by
  have hK : φ.Draws fun s s' => s = s' ∧ s.family = f := by
    constructor
    · rintro s _ ⟨rfl, rfl⟩
      exact h s.nextNode
    · rintro s _ ⟨rfl, rfl⟩
      exact ⟨rfl, rfl⟩
  have hempty : Theory.empty.Steady φ fun s s' => s = s' ∧ s.family = f :=
    ⟨fun e he => absurd he not_mem_nil, rfl⟩
  have hR : AxiomUpkeep (φ.coupling fun s s' => s = s' ∧ s.family = f) (fun _ => True)
      fun _ _ _ => True := by
    refine ⟨hempty.upholds hK, fun {_ n sort} hn _ => ?_, fun {_ vs b} _ _ _ => ?_⟩
    · have hvar := parallel_var hK n sort
      rw [φ.fixed_of_plainName hn.plainName] at hvar
      exact hvar.copies
    · have hall := parallel_make hK { op := .all, sort := .formula } (vs ++ [b]) []
      rw [map_append] at hall
      exact hall.copies
  exact ((copies_familyBuilder hR () f _ _ ⟨rfl, rfl⟩).1.1).symm

theorem Theory.steady_standard {φ : Relabelling} {K : Supply → Supply → Prop}
    (h : ∀ f, f ≠ 0 → ∀ i, φ.node ⟨f, i⟩ = ⟨f, i⟩) : standard.Steady φ K := by
  refine ⟨fun e he ts => ?_, relabel_inFamily (h 6 (by simp))⟩
  rcases schemas_standard e he with ⟨family, hfamily, hrun⟩
  -- The number of indices is not a label.
  rw [hrun, hrun, indexArity_relabel]
  exact parallel_pure (relabel_inFamily (h _ (hfamily _))).symm

/-! ### One stock for all axioms -/

theorem AxiomName.ne_empty {n : String} (h : AxiomName n) : n ≠ "" := by
  cases h with
  | letter hn =>
    rintro rfl
    exact absurd hn (by decide)
  | index hbase k =>
    simp only [mem_cons, not_mem_nil, or_false] at hbase
    rcases hbase with rfl | rfl <;> simp

theorem exists_familyStock (f : Nat) : ∃ Y : Stock, Y.Layered ∧
    (∀ t ∈ Y.terms, t.ident.family = f ∧ t.axioms = []) ∧
    ∀ a ∈ inFamily f (familyBuilder f), a ∈ Y.terms ∧ a.layer = .formula := by
  rcases leaves_familyBuilder axiomSpelling.suits (fun n hn => ⟨rfl, hn.ne_empty⟩) f
    { family := f } ⟨Stock.fits_placeholders f,
      (Stock.layered_placeholders f).placed (rests_empty _ _)⟩ with ⟨X, hle, ⟨_, hX⟩, has⟩
  have hbare : ∀ t, Carries (fun _ => False) t → t.axioms = [] :=
    fun t ht => eq_nil_iff_forall_not_mem.mpr fun a ha => (ht.attached ha).1
  -- Of what was made, only what is spelled like an axiom and carries nothing is kept.
  refine ⟨{ terms := {t | t ∈ X.terms ∧ Spelled axiomSpelling t ∧ Carries (fun _ => False) t}
            names := X.names
            closed := fun t ht c hc =>
              ⟨X.closed t ht.1 c hc, ht.2.1.operand hc, ht.2.2.operand hc⟩
            identified := fun t ht u hu => X.identified t ht.1 u hu.1 },
    ⟨fun t ht => hX.layered.member t ht.1, fun t ht a ha => (ht.2.2.attached ha).1.elim⟩,
    fun t ht => ⟨Stock.family_of_spelled hle ht.1 ht.2.1, hbare t ht.2.2⟩, fun a ha => ?_⟩
  rcases has a ha with ⟨hmem, hlayer, hspelled⟩
  exact ⟨⟨hmem, hspelled, (gives_familyBuilder Structure.standard_trees f _ a ha).bare.carries⟩, hlayer⟩

/-- Families keep apart, so the stocks of all families make one. -/
theorem exists_foundation (names : Nat) : ∃ B : Stock, B.names = names ∧ B.Layered ∧
    (∀ t ∈ B.terms, t.ident.family ≠ 0 ∧ t.axioms = []) ∧
    ∀ f, f ≠ 0 → ∀ a ∈ inFamily f (familyBuilder f), a ∈ B.terms ∧ a.layer = .formula := by
  choose Y hY hfamily haxioms using exists_familyStock
  have hB : ∃ B : Stock, B.names = names ∧ B.terms = {t | ∃ f, f ≠ 0 ∧ t ∈ (Y f).terms} := by
    refine ⟨{ terms := {t | ∃ f, f ≠ 0 ∧ t ∈ (Y f).terms}, names, closed := ?_,
              identified := ?_ }, rfl, rfl⟩
    · rintro t ⟨f, hf, ht⟩ c hc
      exact ⟨f, hf, (Y f).closed t ht c hc⟩
    · rintro t ⟨f, hf, ht⟩ u ⟨g, hg, hu⟩ hid
      have hfg : f = g := by
        rw [← (hfamily f t ht).1, hid, (hfamily g u hu).1]
      subst hfg
      exact (Y f).identified t ht u hu hid
  rcases hB with ⟨B, hnames, hterms⟩
  refine ⟨B, hnames, ⟨fun t ht => ?_, fun t ht a ha => ?_⟩, fun t ht => ?_, fun f hf a ha => ?_⟩
  · rw [hterms] at ht
    rcases ht with ⟨f, _, ht⟩
    exact (hY f).member t ht
  · rw [hterms] at ht ⊢
    rcases ht with ⟨f, hf, ht⟩
    exact ⟨⟨f, hf, ((hY f).attached t ht a ha).1⟩, ((hY f).attached t ht a ha).2⟩
  · rw [hterms] at ht
    rcases ht with ⟨f, hf, ht⟩
    exact ⟨(hfamily f t ht).1 ▸ hf, (hfamily f t ht).2⟩
  · rw [hterms]
    exact ⟨⟨f, hf, (haxioms f a ha).1⟩, (haxioms f a ha).2⟩

end Vouch
