import Vouch.Proofs.Term.Layers
import Vouch.Proofs.Term.Relabel

/-!
# What Building Terms Keeps Up

Facts about built terms are kept up one node at a time: leaves have them, and a node has
them if its operands do.

## Main definitions

* `Coupling`: A way of following two computations.
* `Coupling.single`: One computation by itself, beside nothing.
* `Theory.Upholds`: What is known of operands is known of a node.

## Theorems

* `Theory.Upholds.and`: Then it is known of conjunctions, and so on.
* `Theory.Attaches.upholds`: Which axioms are carried is such a fact.
* `Theory.upholds_freeIn`: Which names are free is another.
-/

namespace Vouch

open List Term

/-- What replaces a name is known for a layer that the name is of. -/
abbrev Subst.Respects {World : Type} (M : Layer → String → Prop) (R : Layer → World → Term → Prop)
    (w : World) (σ : Subst) : Prop :=
  σ.Each fun n r => ∃ l, M l n ∧ R l w r

theorem Subst.Respects.mono {World : Type} {M : Layer → String → Prop}
    {R : Layer → World → Term → Prop} {w v : World} {σ : Subst} (h : σ.Respects M R w)
    (hR : ∀ {l t}, R l w t → R l v t) : σ.Respects M R v := by
  intro n r hr
  rcases h n r hr with ⟨l, hn, hr⟩
  exact ⟨l, hn, hR hr⟩

variable {World : Type} [Preorder World]

/-- A way of following two computations, the second of which makes relabelled terms.
    What is shown of their results may depend on what was made before. -/
structure Coupling (World : Type) [Preorder World] where
  labels : Relabelling
  /-- What is shown of two computations. -/
  Makes : ∀ {α : Type}, World → Fresh α → Fresh α → (World → α → α → Prop) → Prop
  makes_pure : ∀ {α : Type} {w : World} {a a' : α} {Q : World → α → α → Prop}, Q w a a' →
    Makes w (pure a) (pure a') Q
  makes_bind : ∀ {α β : Type} {w : World} {m m' : Fresh α} {f f' : α → Fresh β}
    {Q : World → α → α → Prop} {R : World → β → β → Prop}, Makes w m m' Q →
    (∀ v a a', w ≤ v → Q v a a' → Makes v (f a) (f' a') R) → Makes w (m >>= f) (m' >>= f') R
  and_gives : ∀ {α : Type} {w : World} {m m' : Fresh α} {Q : World → α → α → Prop}
    {P : α → Prop}, Makes w m m' Q → Gives m P → Makes w m m' fun v a a' => Q v a a' ∧ P a

namespace Coupling

/-- What the second computation makes instead of the term. -/
abbrev copy (L : Coupling World) (t : Term) : Term :=
  t.relabel L.labels

/-- The second computation makes the term that the first makes, relabelled, and of that
    one this is known. -/
def Copies (L : Coupling World) (w : World) (m m' : Fresh Term) (R : World → Term → Prop) : Prop :=
  L.Makes w m m' fun v t t' => t' = L.copy t ∧ R v t

section Rules

variable {L : Coupling World} {w : World} {α : Type}

theorem makes_mono {m m' : Fresh α} {Q Q' : World → α → α → Prop} (hm : L.Makes w m m' Q)
    (h : ∀ v a a', w ≤ v → Q v a a' → Q' v a a') : L.Makes w m m' Q' := by
  have hpure := L.makes_bind hm fun v a a' hwv ha => L.makes_pure (h v a a' hwv ha)
  rwa [bind_pure, bind_pure] at hpure

variable {m m' : Fresh Term} {R : World → Term → Prop} (hm : L.Copies w m m' R)
include hm

theorem step {f f' : Term → Fresh α} {Q : World → α → α → Prop}
    (hf : ∀ v t, w ≤ v → R v t → L.Makes v (f t) (f' (L.copy t)) Q) :
    L.Makes w (m >>= f) (m' >>= f') Q := by
  refine L.makes_bind hm ?_
  rintro v t _ hwv ⟨rfl, ht⟩
  exact hf v t hwv ht

theorem Copies.and_gives {P : Term → Prop} (h : Gives m P) :
    L.Copies w m m' fun v t => R v t ∧ P t :=
  makes_mono (L.and_gives hm h) fun _ _ _ _ ht => ⟨ht.1.1, ht.1.2, ht.2⟩

omit hm

theorem makes_mapM {f f' : α → Fresh Term} (hmono : ∀ v u t, v ≤ u → R v t → R u t) :
    ∀ {as : List α} {w : World}, (∀ a ∈ as, ∀ v, w ≤ v → L.Copies v (f a) (f' a) R) →
    L.Makes w (as.mapM f) (as.mapM f') fun v ts ts' =>
      ts' = ts.map L.copy ∧ ∀ t ∈ ts, R v t
  | [], w, _ => by
    rw [mapM_nil, mapM_nil]
    exact L.makes_pure ⟨rfl, by simp⟩
  | a :: as, w, h => by
    rw [mapM_cons, mapM_cons]
    refine L.step (h a mem_cons_self w le_rfl) fun v t hwv ht => ?_
    refine L.makes_bind (makes_mapM hmono fun a' ha' u hvu =>
      h a' (mem_cons_of_mem _ ha') u (hwv.trans hvu)) ?_
    rintro u ts _ hvu ⟨rfl, hts⟩
    exact L.makes_pure ⟨rfl, forall_mem_cons.mpr ⟨hmono v u t hvu ht, hts⟩⟩

end Rules

/-- Follow the first computation only. The second result may be anything. -/
def single (fits : World → Supply → Prop) : Coupling World where
  labels := .same
  Makes w m _ Q := Leaves fits w m fun v a => ∃ a', Q v a a'
  makes_pure h := leaves_pure ⟨_, h⟩
  makes_bind hm hf := leaves_bind hm fun v a hwv ⟨a', ha⟩ => hf v a a' hwv ha
  and_gives hm h := (hm.and_gives h).mono fun _ _ _ ⟨⟨a', ha⟩, hP⟩ => ⟨a', ha, hP⟩

end Coupling

section Single

variable {fits : World → Supply → Prop} {w : World} {m m' : Fresh Term} {R : World → Term → Prop}

theorem Leaves.copies (h : Leaves fits w m R) : (Coupling.single fits).Copies w m m' R := by
  intro s hs
  rcases h s hs with ⟨v, hwv, hv, ht⟩
  exact ⟨v, hwv, hv, _, rfl, ht⟩

theorem Coupling.Copies.leaves (h : (Coupling.single fits).Copies w m m' R) : Leaves fits w m R := by
  intro s hs
  rcases h s hs with ⟨v, hwv, hv, _, _, ht⟩
  exact ⟨v, hwv, hv, ht⟩

end Single

/-- What is known of terms for their layers is known of leaves, and of a node if it is
    known of its operands for the layers that the operator takes. -/
structure Theory.Upholds (th : Theory) (L : Coupling World) (F : String → Prop)
    (R : Layer → World → Term → Prop) : Prop where
  mono : ∀ {l w v t}, w ≤ v → R l w t → R l v t
  formula : ∀ {w} b, L.Copies w (Term.formula b) (Term.formula b) (R .formula)
  int : ∀ {w} n, L.Copies w (Term.int n) (Term.int n) (R .value)
  boolLit : ∀ {w} b, L.Copies w (th.boolLit b) (th.boolLit b) (R .value)
  /-- Operators whose operands are all of one layer. -/
  make : ∀ {w op sort k l ts}, op.operands? = some k → op.layer? = some l →
    Head.layer { op, sort } = l → (∀ f, op = .app f → F f) → (∀ t ∈ ts, R k w t) →
    L.Copies w (th.make op sort ts) (th.make op sort (ts.map L.copy)) (R l)
  mapSelect : ∀ {w m i sort}, R .value w m → R .indices w i → sort.layer = .value →
    L.Copies w (th.make .mapSelect sort [m, i]) (th.make .mapSelect sort [L.copy m, L.copy i])
      (R .value)
  mapUpdate : ∀ {w m i v}, R .value w m → R .indices w i → R .value w v →
    L.Copies w (th.make .mapUpdate .value [m, i, v])
      (th.make .mapUpdate .value [L.copy m, L.copy i, L.copy v]) (R .value)

/-- The operator is no function, and it makes terms of one layer of operands that are all
    of another. -/
structure Op.Maps (op : Op) (sort : TermSort) (k l : Layer) : Prop where
  operands : op.operands? = some k
  made : op.layer? = some l
  layer : Head.layer { op, sort } = l
  ne_app : ∀ f, op ≠ .app f

theorem Theory.filter_relabel {φ : Relabelling} {p : Term → Bool} (hp : ∀ t, p (t.relabel φ) = p t)
    (ts : List Term) : (ts.map (relabel φ)).filter p = (ts.filter p).map (relabel φ) := by
  rw [filter_map]
  congr 1
  exact filter_congr fun t _ => hp t

namespace Theory.Upholds

variable {L : Coupling World} {th : Theory} {F : String → Prop} {R : Layer → World → Term → Prop}
  {w : World} {a b : Term} {ts : List Term} (hth : th.Upholds L F R)
include hth

variable {sort : TermSort}

theorem many {op : Op} {k l : Layer} (hop : op.Maps sort k l) (hts : ∀ t ∈ ts, R k w t) :
    L.Copies w (th.make op sort ts) (th.make op sort (ts.map L.copy)) (R l) :=
  hth.make hop.operands hop.made hop.layer (fun f hf => absurd hf (hop.ne_app f)) hts

theorem two {op : Op} {k l : Layer} (hop : op.Maps sort k l) (ha : R k w a) (hb : R k w b) :
    L.Copies w (th.make op sort [a, b]) (th.make op sort [L.copy a, L.copy b]) (R l) :=
  hth.many hop (by simp [ha, hb])

theorem not (ha : R .formula w a) : L.Copies w (th.not a) (th.not (L.copy a)) (R .formula) :=
  hth.many ⟨rfl, rfl, rfl, by simp⟩ (by simpa using ha)

theorem and (ts : List Term) (hts : ∀ t ∈ ts, R .formula w t) :
    L.Copies w (th.and ts) (th.and (ts.map L.copy)) (R .formula) := by
  have hkept : ∀ t ∈ ts.filter (!·.isTrue), R .formula w t :=
    fun t ht => hts t (mem_filter.mp ht).1
  unfold Theory.and
  rw [filter_relabel fun t => congrArg Bool.not (isTrue_relabel t)]
  generalize ts.filter (!·.isTrue) = us at hkept
  rcases us with _ | ⟨t, _ | ⟨u, us⟩⟩
  · exact hth.formula true
  · exact L.makes_pure ⟨rfl, hkept t (by simp)⟩
  · exact hth.many ⟨rfl, rfl, rfl, by simp⟩ hkept

theorem or (ts : List Term) (hts : ∀ t ∈ ts, R .formula w t) :
    L.Copies w (th.or ts) (th.or (ts.map L.copy)) (R .formula) := by
  have hkept : ∀ t ∈ ts.filter (!·.isFalse), R .formula w t :=
    fun t ht => hts t (mem_filter.mp ht).1
  unfold Theory.or
  rw [filter_relabel fun t => congrArg Bool.not (isFalse_relabel t)]
  generalize ts.filter (!·.isFalse) = us at hkept
  rcases us with _ | ⟨t, _ | ⟨u, us⟩⟩
  · exact hth.formula false
  · exact L.makes_pure ⟨rfl, hkept t (by simp)⟩
  · exact hth.many ⟨rfl, rfl, rfl, by simp⟩ hkept

theorem implies (ha : R .formula w a) (hb : R .formula w b) :
    L.Copies w (th.implies a b) (th.implies (L.copy a) (L.copy b)) (R .formula) := by
  unfold Theory.implies
  rw [isTrue_relabel, isTrue_relabel]
  split
  · exact L.makes_pure ⟨rfl, hb⟩
  · exact hth.two ⟨rfl, rfl, rfl, by simp⟩ ha hb

theorem select (ha : R .value w a) (hts : ∀ t ∈ ts, R .value w t) (hsort : sort.layer = .value) :
    L.Copies w (th.select a ts sort) (th.select (L.copy a) (ts.map L.copy) sort) (R .value) := by
  refine L.step (hth.many ⟨rfl, rfl, rfl, by simp⟩ hts) fun _ _ hwv hi => ?_
  exact hth.mapSelect (hth.mono hwv ha) hi hsort

theorem update (ha : R .value w a) (hts : ∀ t ∈ ts, R .value w t) (hb : R .value w b) :
    L.Copies w (th.update a ts b) (th.update (L.copy a) (ts.map L.copy) (L.copy b)) (R .value) := by
  refine L.step (hth.many ⟨rfl, rfl, rfl, by simp⟩ hts) fun _ _ hwv hi => ?_
  exact hth.mapUpdate (hth.mono hwv ha) hi (hth.mono hwv hb)

theorem tnot (ha : R .value w a) : L.Copies w (th.tnot a) (th.tnot (L.copy a)) (R .value) :=
  hth.two ⟨rfl, rfl, rfl, by simp⟩ ha ha

theorem tand (ha : R .value w a) (hb : R .value w b) :
    L.Copies w (th.tand a b) (th.tand (L.copy a) (L.copy b)) (R .value) :=
  L.step (hth.two ⟨rfl, rfl, rfl, by simp⟩ ha hb) fun _ _ _ ht => hth.tnot ht

theorem timplies (ha : R .value w a) (hb : R .value w b) :
    L.Copies w (th.timplies a b) (th.timplies (L.copy a) (L.copy b)) (R .value) := by
  refine L.step (hth.tnot hb) fun _ _ hwv ht => ?_
  exact hth.two ⟨rfl, rfl, rfl, by simp⟩ (hth.mono hwv ha) ht

theorem tor (ha : R .value w a) (hb : R .value w b) :
    L.Copies w (th.tor a b) (th.tor (L.copy a) (L.copy b)) (R .value) :=
  L.step (hth.tnot ha) fun _ _ hwv ha' => hth.timplies ha' (hth.mono hwv hb)

end Theory.Upholds

/-! ### Whatever the supply -/

theorem Theory.upholds_of_gives {th : Theory} {P : Term → Prop}
    (hliteral : ∀ sort l, Gives (Term.make { op := .lit, sort, payload := some l }) P)
    (hbool : ∀ b, Gives (th.boolLit b) P)
    (hmake : ∀ {op : Op} (sort : TermSort) {ts : List Term}, op ≠ .all → (∀ t ∈ ts, P t) →
      Gives (th.make op sort ts) P) :
    th.Upholds (.single fun (_ : Unit) _ => True) (fun _ => True) fun _ _ => P where
  mono _ h := h
  formula _ := (hliteral _ _).leaves.copies
  int _ := (hliteral _ _).leaves.copies
  boolLit b := (hbool b).leaves.copies
  make hk _ _ _ hts := by
    refine (hmake _ ?_ hts).leaves.copies
    rintro rfl
    cases hk
  mapSelect hm hi _ := (hmake _ (by simp) (by simp [hm, hi])).leaves.copies
  mapUpdate hm hi hv := (hmake _ (by simp) (by simp [hm, hi, hv])).leaves.copies

theorem Theory.Attaches.upholds {A : Term → Prop} {th : Theory} (hth : th.Attaches A) :
    th.Upholds (.single fun (_ : Unit) _ => True) (fun _ => True) fun _ _ => Carries A := by
  refine upholds_of_gives (fun _ _ => gives_leaf _) (fun _ => ?_) fun sort _ _ hts => ?_
  · exact gives_make_carries (by simp) hth.literals
  · exact hth.make _ sort hts

theorem Theory.upholds_freeIn (th : Theory) (N : String → Prop) :
    th.Upholds (.single fun (_ : Unit) _ => True) (fun _ => True) fun _ _ => FreeIn N := by
  refine upholds_of_gives (fun sort l s => ?_) (fun b s => ?_) fun sort ts hop hts s => ?_
  · rcases gives_make { op := .lit, sort, payload := some l } [] [] s with ⟨hhead, hcs, _⟩
    exact .of_head hhead (by simp) (by simp) (by simp [hcs])
  · obtain ⟨hhead, hcs, _⟩ := gives_make
      { op := .lit, sort := .bool, payload := some (.bool b) } [] th.literalAxioms s
    exact .of_head hhead (by simp) (by simp) (by rw [Theory.boolLit, hcs]; simp)
  · rcases gives_theory_make th _ sort _ s with ⟨hhead, hcs⟩
    exact .of_head hhead (by simp) hop (by rwa [hcs])

end Vouch
