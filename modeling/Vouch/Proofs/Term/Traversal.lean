import Vouch.Proofs.Term.Meaning
import Vouch.Proofs.Term.Stock
import Vouch.Term.Subst

/-!
# How Substitution Goes Through a Term

A proof about substitution is an induction on the term in which the same things happen
whatever is proved: a node met before has become what is remembered about it, a node
that is new is dealt with and remembered, and the operands of a node are dealt with from
left to right.

## Main definitions

* `Term.Passage`: What a proof keeps track of along the way.
* `Term.substFirst`: Substitution in a node that is new.

## Theorems

* `Term.Passage.substitutes_of_first`: The node that is new is all that is left to show.
* `Term.Passage.Substitutes.subst`: What a term becomes.
-/

namespace Vouch

open List

namespace Term

/-- Substitution in a node that has not been dealt with, apart from remembering
    the result. -/
def substFirst (σ : Subst) (inc : List String) (t : Term) (memo : NodeMap Term) :
    Fresh (Term × NodeMap Term) :=
  match t.name?.bind σ.find? with
  | some r => pure (r, memo)
  | none =>
    if σ.meets inc t.boundNames then do
      let bodyNames := (t.children.getLast?.map allNames).getD []
      let p ← Subst.renameBinders inc t.children.dropLast (bodyNames ++ inc ++ σ.keys)
        (σ.eraseAll t.boundNames)
      let body ← substLast p.2 p.2.incoming t.children
      let r ← t.withChildren (p.1 ++ body.toList)
      pure (r, memo)
    else do
      let p ← (substNodes σ inc t.children).run memo
      let r ← t.withChildren p.1
      pure (r, p.2)

theorem substNode_run (σ : Subst) (inc : List String) (t : Term) (memo : NodeMap Term) :
    (substNode σ inc t).run memo = match memo[t.ident]? with
      | some done => pure (done, memo)
      | none => substFirst σ inc t memo >>= fun p => pure (p.1, p.2.insert t.ident p.1) := by
  obtain ⟨id, h, cs, as⟩ := t
  have hid : (node id h cs as).ident = id := rfl
  rw [substNode, hid]
  simp only [StateT.run_bind, StateT.run_get, pure_bind]
  unfold substFirst
  cases memo[id]? with
  | some d => simp
  | none =>
    cases (node id h cs as).name?.bind σ.find? with
    | some r => simp
    | none =>
      simp only []
      split
      · simp [StateT.run_monadLift, children]
      · simp [children]

theorem substNodes_cons (σ : Subst) (inc : List String) (t : Term) (ts : List Term)
    (memo : NodeMap Term) :
    (substNodes σ inc (t :: ts)).run memo = (substNode σ inc t).run memo >>= fun p =>
      (substNodes σ inc ts).run p.2 >>= fun q => pure (p.1 :: q.1, q.2) := by
  rw [substNodes]
  simp only [StateT.run_bind, StateT.run_pure]

theorem substLast_of_getLast? {ts : List Term} {b : Term} (h : ts.getLast? = some b) (σ : Subst)
    (inc : List String) : substLast σ inc ts = if σ.isEmpty then pure (some b)
      else (substNode σ inc b).run ∅ >>= fun p => pure (some p.1) := by
  induction ts with
  | nil => simp at h
  | cons t ts ih =>
    rw [substLast]
    cases ts with
    | nil =>
      have htb : t = b := by simpa using h
      rw [htb]
      rfl
    | cons u us => exact ih (by simpa using h)

variable {inc : List String} {σ : Subst}

theorem meets_eq_false {names : List String} (h : ¬ σ.meets inc names = true) :
    ∀ n ∈ names, σ.find? n = none ∧ n ∉ inc := by
  intro n hn
  simp only [Subst.meets, any_eq_true, not_exists, not_and, Bool.or_eq_true, not_or] at h
  have := h n hn
  simpa [NameMap.contains] using this

theorem op_of_meets {t : Term} (h : σ.meets inc t.boundNames = true) : t.op = .all := by
  by_contra hop
  simp [boundNames_of_op_ne hop, Subst.meets] at h

theorem getLast?_of_meets {t : Term} (h : σ.meets inc t.boundNames = true) :
    ∃ b, t.children.getLast? = some b := by
  cases hb : t.children.getLast? with
  | some b => exact ⟨b, rfl⟩
  | none =>
    simp [boundNames_of_op_all (op_of_meets h), getLast?_eq_none_iff.mp hb, Subst.meets] at h

/-- What a proof keeps track of while substitution goes through a term: the nodes
    that can be met, when a substitution may be made in one, and what it becomes.
    All this may depend on what there is so far. -/
structure Passage (World : Type) [Preorder World] where
  fits : World → Supply → Prop
  met : World → Term → Prop
  ready : Subst → World → Term → Prop
  becomes : Subst → Term → Term → Prop
  met_mono : ∀ {w v : World} {t : Term}, w ≤ v → met w t → met v t
  ready_mono : ∀ {σ : Subst} {w v : World} {t : Term}, w ≤ v → ready σ w t → ready σ v t
  becomes_of_ident : ∀ {σ : Subst} {w : World} {t u r : Term}, met w t → met w u →
    u.ident = t.ident → becomes σ u r → becomes σ t r

/-- The nodes that can be met are those of a stock. -/
def Passage.ofStock (fits : Stock → Supply → Prop) (ready : Subst → Stock → Term → Prop)
    (becomes : Subst → Term → Term → Prop)
    (hready : ∀ {σ : Subst} {W X : Stock} {t : Term}, W ≤ X → ready σ W t → ready σ X t) :
    Passage Stock where
  fits := fits
  met W t := t ∈ W.terms
  ready := ready
  becomes := becomes
  met_mono hWX ht := hWX.1 ht
  ready_mono := hready
  becomes_of_ident {_ W t u _} ht hu hid h := W.identified u hu t ht hid ▸ h

namespace Passage

variable {World : Type} [Preorder World] (K : Passage World)

/-- What is remembered about a node is what it has become. -/
def Remembers (σ : Subst) (w : World) (memo : NodeMap Term) : Prop :=
  ∀ (id : NodeId) r, memo[id]? = some r →
    ∃ t, K.met w t ∧ t.ident = id ∧ K.met w r ∧ K.becomes σ t r

/-- A substituted node with what is remembered afterwards. -/
def Rebuilt (σ : Subst) (t : Term) (w : World) (p : Term × NodeMap Term) : Prop :=
  K.met w p.1 ∧ K.becomes σ t p.1 ∧ K.Remembers σ w p.2

/-- The term becomes what it should, for every substitution that may be made in it. -/
def Substitutes (t : Term) : Prop :=
  ∀ ⦃w : World⦄ ⦃σ : Subst⦄ ⦃memo : NodeMap Term⦄, K.met w t → K.ready σ w t →
    K.Remembers σ w memo →
    Leaves K.fits w ((substNode σ σ.incoming t).run memo) (K.Rebuilt σ t)

variable {K} {σ : Subst} {w v : World} {t r : Term} {memo : NodeMap Term}

theorem Remembers.mono (h : K.Remembers σ w memo) (hwv : w ≤ v) : K.Remembers σ v memo := by
  intro id r hr
  rcases h id r hr with ⟨t, ht, hid, hmet, hrel⟩
  exact ⟨t, K.met_mono hwv ht, hid, K.met_mono hwv hmet, hrel⟩

theorem Remembers.insert (h : K.Remembers σ w memo) (ht : K.met w t) (hr : K.met w r)
    (hrel : K.becomes σ t r) : K.Remembers σ w (memo.insert t.ident r) := by
  intro id s hs
  rw [Std.TreeMap.getElem?_insert] at hs
  split at hs
  · next hid =>
    rw [Option.some.injEq] at hs
    exact ⟨t, ht, Std.compare_eq_iff_eq.mp hid, hs ▸ hr, hs ▸ hrel⟩
  · exact h id s hs

variable {ts : List Term}

theorem leaves_substNodes (hsubst : ∀ t ∈ ts, K.Substitutes t) :
    ∀ {w : World} {memo : NodeMap Term}, (∀ t ∈ ts, K.met w t ∧ K.ready σ w t) →
      K.Remembers σ w memo →
      Leaves K.fits w ((substNodes σ σ.incoming ts).run memo) fun v p =>
        (∀ r ∈ p.1, K.met v r) ∧ Forall₂ (K.becomes σ) ts p.1 ∧ K.Remembers σ v p.2 := by
  induction ts with
  | nil =>
    intro w memo _ hmemo
    rw [substNodes]
    exact leaves_pure ⟨by simp, .nil, hmemo⟩
  | cons t ts ih =>
    intro w memo hts hmemo
    rcases forall_mem_cons.mp hts with ⟨⟨ht, hready⟩, hts⟩
    rcases forall_mem_cons.mp hsubst with ⟨hfirst, hsubst⟩
    rw [substNodes_cons]
    refine leaves_bind (hfirst ht hready hmemo) fun v p hwv hp => ?_
    refine leaves_bind (ih hsubst (fun u hu => ⟨K.met_mono hwv (hts u hu).1,
      K.ready_mono hwv (hts u hu).2⟩) hp.2.2) fun v' q hv hq => ?_
    exact leaves_pure ⟨forall_mem_cons.mpr ⟨K.met_mono hv hp.1, hq.1⟩,
      .cons hp.2.1 hq.2.1, hq.2.2⟩

/-- What is remembered needs no proof, so only a node met first does. -/
theorem substitutes_of_first
    (hfirst : ∀ t, (∀ c ∈ t.children, K.Substitutes c) → ∀ ⦃w : World⦄ ⦃σ : Subst⦄
      ⦃memo : NodeMap Term⦄, K.met w t → K.ready σ w t → K.Remembers σ w memo →
      Leaves K.fits w (substFirst σ σ.incoming t memo) (K.Rebuilt σ t))
    (t : Term) : K.Substitutes t := by
  induction t using Term.induction with
  | step t ih =>
    intro w σ memo ht hready hmemo
    rw [substNode_run]
    split
    · next r hfound =>
      rcases hmemo _ r hfound with ⟨u, hu, hid, hr, hrel⟩
      exact leaves_pure ⟨hr, K.becomes_of_ident ht hu hid hrel, hmemo⟩
    · refine leaves_bind (hfirst t ih ht hready hmemo) fun v p hwv hp => ?_
      exact leaves_pure ⟨hp.1, hp.2.1, hp.2.2.insert (K.met_mono hwv ht) hp.1 hp.2.1⟩

theorem Substitutes.run_empty (h : K.Substitutes t) (ht : K.met w t) (hready : K.ready σ w t) :
    Leaves K.fits w ((substNode σ σ.incoming t).run ∅) (K.Rebuilt σ t) :=
  h ht hready fun id r hr => by simp at hr

theorem Substitutes.substLast (h : K.Substitutes t) (ht : K.met w t) (hready : K.ready σ w t)
    (hself : σ.isEmpty → K.becomes σ t t) (hlast : ts.getLast? = some t) :
    Leaves K.fits w (Term.substLast σ σ.incoming ts) fun v body =>
      ∃ r, body = some r ∧ K.met v r ∧ K.becomes σ t r := by
  rw [substLast_of_getLast? hlast]
  split
  · next hempty => exact leaves_pure ⟨t, rfl, ht, hself hempty⟩
  · refine leaves_bind (h.run_empty ht hready) fun v p _ hp => ?_
    exact leaves_pure ⟨p.1, rfl, hp.1, hp.2.1⟩

theorem Substitutes.subst (h : K.Substitutes t) (ht : K.met w t) (hready : K.ready σ w t)
    (hself : σ.isEmpty → K.becomes σ t t) :
    Leaves K.fits w (t.subst σ) fun v r => K.met v r ∧ K.becomes σ t r := by
  unfold Term.subst
  split
  · next hempty => exact leaves_pure ⟨ht, hself hempty⟩
  · exact leaves_bind (h.run_empty ht hready) fun v p _ hp => leaves_pure ⟨hp.1, hp.2.1⟩

end Passage

end Term

end Vouch
