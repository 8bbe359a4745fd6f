import Mathlib.Order.CompleteBooleanAlgebra
import Mathlib.Order.CompletePartialOrder
import Vouch.Proofs.Term.Renaming
import Vouch.Proofs.Term.Traversal
import Vouch.Term.AxiomBag

/-!
# What Is Attached to a Term

Axioms hang on the nodes of a term and on each other, and collecting follows
them wherever they lead. Nothing that builds terms takes an attached axiom off or puts
one on by itself. New nodes get the axioms of a theory, and rebuilt ones keep theirs. So
whatever is true of the theory's axioms is true of all that are carried.

## Main definitions

* `Term.Carries`: Every axiom that can be met from a term is of a kind.
* `Gives`: The result of a computation is as described, whatever the supply.
* `Theory.Attaches`: The axioms of a theory are of a kind.

## Theorems

* `Term.Carries.collectAxioms`: Collected axioms are of the kind.
* `Term.Carries.subst`: Substitution keeps what is carried.
-/

namespace Vouch

open List

namespace Term

/-- Every axiom attached to a node of the term, or to an axiom so met, is of the
    kind. -/
inductive Carries (A : Term → Prop) : Term → Prop where
  | intro {t : Term} : (∀ c ∈ t.children, Carries A c) → (∀ a ∈ t.axioms, A a) →
      (∀ a ∈ t.axioms, Carries A a) → Carries A t

variable {A : Term → Prop} {t : Term}

theorem Carries.operand (h : Carries A t) {c : Term} (hc : c ∈ t.children) : Carries A c := by
  rcases h with ⟨hcs, _, _⟩
  exact hcs c hc

theorem Carries.attached (h : Carries A t) {a : Term} (ha : a ∈ t.axioms) : A a ∧ Carries A a := by
  rcases h with ⟨_, has, hbeyond⟩
  exact ⟨has a ha, hbeyond a ha⟩

theorem Carries.of_parts (hcs : ∀ c ∈ t.children, Carries A c)
    (has : ∀ a ∈ t.axioms, A a ∧ Carries A a) : Carries A t :=
  .intro hcs (fun a ha => (has a ha).1) fun a ha => (has a ha).2

end Term

open Term

namespace AxiomBag

variable {A : Term → Prop}

theorem mem_insert {bag : AxiomBag} {t a : Term} (h : a ∈ (bag.insert t).items) :
    a ∈ bag.items ∨ a = t := by
  unfold insert at h
  split at h
  · exact .inl h
  · simpa using h

theorem mem_insertAll {a : Term} : ∀ {ts : List Term} {bag : AxiomBag},
    a ∈ (bag.insertAll ts).2.items → a ∈ bag.items ∨ a ∈ ts
  | [], _, h => .inl h
  | t :: ts, bag, h => by
    have hrest : a ∈ ((bag.insert t).insertAll ts).2.items := h
    rcases mem_insertAll hrest with h | h
    · rcases mem_insert h with h | rfl
      · exact .inl h
      · exact .inr mem_cons_self
    · exact .inr (mem_cons_of_mem _ h)

mutual

theorem items_fill : ∀ {t : Term} {s : Filling}, Carries A t → (∀ a ∈ s.bag.items, A a) →
    ∀ a ∈ (fill t s).bag.items, A a
  | .node id h cs as, s, ht, hs => by
    rw [fill]
    split
    · exact hs
    · -- The axioms of the node come first, then those of its operands, and last
      -- what is carried by the axioms that were new.
      have hbag : ∀ a ∈ (s.bag.insertAll as).2.items, A a := by
        intro a ha
        rcases mem_insertAll ha with ha | ha
        · exact hs a ha
        · exact (ht.attached ha).1
      refine items_fillMarked _ (fun a ha => (ht.attached ha).2) ?_
      exact items_fillList (fun c hc => ht.operand hc) hbag

theorem items_fillList : ∀ {ts : List Term} {s : Filling}, (∀ t ∈ ts, Carries A t) →
    (∀ a ∈ s.bag.items, A a) → ∀ a ∈ (fillList ts s).bag.items, A a
  | [], s, _, hs => by
    rw [fillList]
    exact hs
  | t :: ts, s, hts, hs => by
    rw [fillList]
    refine items_fill (hts t mem_cons_self) ?_
    exact items_fillList ((forall_mem_cons.mp hts).2) hs

theorem items_fillMarked : ∀ {ts : List Term} (news : List Bool) {s : Filling},
    (∀ t ∈ ts, Carries A t) → (∀ a ∈ s.bag.items, A a) →
    ∀ a ∈ (fillMarked ts news s).bag.items, A a
  | [], _, _, _, hs => by
    rw [fillMarked]
    exact hs
    simp
  | _ :: _, [], _, _, hs => by
    rw [fillMarked]
    exact hs
    simp
  | t :: ts, new :: news, s, hts, hs => by
    have hrest := items_fillMarked news ((forall_mem_cons.mp hts).2) hs
    rw [fillMarked]
    split
    · exact items_fill (hts t mem_cons_self) hrest
    · exact hrest

end

end AxiomBag

variable {A : Term → Prop} {t : Term} {sort : TermSort}

/-- Collecting follows axioms into axioms, and all of them are of the kind. -/
theorem Term.Carries.collectAxioms (ht : Carries A t) : ∀ a ∈ t.collectAxioms.items, A a :=
  AxiomBag.items_fill ht (by simp)

theorem AxiomBag.items_collectAll {ts : List Term} : ∀ {bag : AxiomBag},
    (∀ t ∈ ts, Carries A t) → (∀ a ∈ bag.items, A a) →
    ∀ a ∈ (ts.foldl AxiomBag.collect bag).items, A a := by
  induction ts with
  | nil => exact fun _ hbag => hbag
  | cons t ts ih =>
    intro bag hts hbag
    have hfirst : ∀ a ∈ (bag.collect t).items, A a :=
      items_fill (hts t mem_cons_self) hbag
    exact ih ((forall_mem_cons.mp hts).2) hfirst

/-- The result of the computation is as described, whatever the supply. -/
def Gives {α : Type} (m : Fresh α) (P : α → Prop) : Prop :=
  ∀ s, P (m.run s).1

section Rules

variable {α β : Type} {P : α → Prop} {Q : β → Prop}

theorem gives_pure {a : α} (h : P a) : Gives (pure a) P :=
  fun _ => h

variable {f : α → Fresh β} {m : Fresh α}

theorem gives_bind (hm : Gives m P) (hf : ∀ a, P a → Gives (f a) Q) : Gives (m >>= f) Q :=
  fun s => hf _ (hm s) (m.run s).2

theorem Gives.and {P' : α → Prop} (h : Gives m P) (h' : Gives m P') : Gives m fun a => P a ∧ P' a :=
  fun s => ⟨h s, h' s⟩

theorem Gives.leaves (h : Gives m P) : Leaves (fun (_ : Unit) _ => True) () m fun _ => P :=
  fun s _ => ⟨(), le_rfl, trivial, h s⟩

theorem Leaves.and_gives {World : Type} [Preorder World] {fits : World → Supply → Prop}
    {w : World} {Q : World → α → Prop} (h : Leaves fits w m Q) (h' : Gives m P) :
    Leaves fits w m fun v a => Q v a ∧ P a := by
  intro s hs
  rcases h s hs with ⟨v, hwv, hv, hQ⟩
  exact ⟨v, hwv, hv, hQ, h' s⟩

theorem gives_mapM {R : α → β → Prop} : ∀ {as : List α},
    (∀ a ∈ as, Gives (f a) (R a)) → Gives (as.mapM f) fun bs => Forall₂ R as bs
  | [], _ => by
    rw [mapM_nil]
    exact gives_pure .nil
  | a :: as, h => by
    rw [mapM_cons]
    refine gives_bind (h a mem_cons_self) fun b hb => ?_
    refine gives_bind (gives_mapM fun a' ha' => h a' (mem_cons_of_mem _ ha')) fun bs hbs => ?_
    exact gives_pure (.cons hb hbs)

end Rules

theorem gives_name (base : String) : Gives (Fresh.name base) fun n => ∃ k, n = versionName base k :=
  fun s => ⟨s.nextName, rfl⟩

theorem gives_make (h : Head) (cs as : List Term) :
    Gives (Term.make h cs as) fun t => t.head = h ∧ t.children = cs ∧ t.axioms = as :=
  fun _ => ⟨rfl, rfl, rfl⟩

theorem gives_theory_make (th : Theory) (op : Op) (sort : TermSort) (ts : List Term) :
    Gives (th.make op sort ts) fun t => t.head = { op, sort } ∧ t.children = ts := by
  unfold Theory.make
  split <;> exact fun s => ⟨rfl, rfl⟩

/-- A variable to which nothing is attached. -/
structure Term.BareVar (n : String) (sort : TermSort) (t : Term) : Prop where
  head : t.head = { op := .var, sort, payload := some (.name n) }
  children : t.children = []
  axioms : t.axioms = []

theorem gives_bareVar (n : String) (sort : TermSort) :
    Gives (Term.var n sort) (Term.BareVar n sort) :=
  fun _ => ⟨rfl, rfl, rfl⟩

theorem Term.BareVar.name? {n : String} (h : Term.BareVar n sort t) : t.name? = some n := by
  rw [Term.name?, Term.op, Term.payload, h.head]

theorem Term.BareVar.carries {n : String} (h : Term.BareVar n sort t) : Carries A t :=
  .of_parts (by simp [h.children]) (by simp [h.axioms])

/-- The axioms that the theory attaches are of the kind, and so is what they
    carry. -/
structure Theory.Attaches (A : Term → Prop) (th : Theory) : Prop where
  schemas : ∀ e ∈ th.schemas, ∀ cs, Gives (e.2 cs) fun as => ∀ a ∈ as, A a ∧ Carries A a
  literals : ∀ a ∈ th.literalAxioms, A a ∧ Carries A a

section Building

variable {A : Term → Prop} {cs : List Term}

theorem gives_make_carries {h : Head} {as : List Term} (hcs : ∀ c ∈ cs, Carries A c)
    (has : ∀ a ∈ as, A a ∧ Carries A a) : Gives (Term.make h cs as) (Carries A) := by
  intro s
  rcases gives_make h cs as s with ⟨_, hchildren, haxioms⟩
  exact .of_parts (by rwa [hchildren]) (by rwa [haxioms])

theorem gives_leaf (h : Head) : Gives (Term.make h) (Carries A) :=
  gives_make_carries (by simp) (by simp)

theorem Term.Carries.withChildren {t : Term} (ht : Carries A t) (hcs : ∀ c ∈ cs, Carries A c) :
    Gives (t.withChildren cs) (Carries A) := by
  unfold Term.withChildren
  split
  · exact gives_pure ht
  · exact gives_make_carries hcs fun a ha => ht.attached ha

end Building

namespace Theory.Attaches

variable {A : Term → Prop} {th : Theory} (hth : th.Attaches A)
include hth

theorem make (op : Op) (sort : TermSort) {ts : List Term} (hts : ∀ t ∈ ts, Carries A t) :
    Gives (th.make op sort ts) (Carries A) := by
  unfold Theory.make
  split
  · next schema hfound =>
    refine gives_bind (hth.schemas _ (mem_of_lookup hfound) ts) fun as has => ?_
    exact gives_make_carries hts has
  · exact gives_make_carries hts (by simp)

theorem all {vs : List Term} {b : Term} (hvs : ∀ v ∈ vs, Carries A v) (hb : Carries A b) :
    Gives (th.all vs b) (Carries A) := by
  unfold Theory.all
  split
  · exact gives_pure hb
  · refine hth.make _ _ fun t ht => ?_
    rcases mem_append.mp ht with ht | ht
    · exact hvs t ht
    · rw [mem_singleton.mp ht]
      exact hb

end Theory.Attaches

/-- The replacements carry only axioms of the kind. -/
abbrev Subst.Carries (A : Term → Prop) (σ : Subst) : Prop :=
  σ.Each fun _ => Term.Carries A

theorem Subst.Carries.renameBinders (inc : List String) :
    ∀ (vs : List Term) (taken : List String) {σ : Subst}, (∀ v ∈ vs, Term.Carries A v) →
      σ.Carries A → Gives (Subst.renameBinders inc vs taken σ) fun p =>
        (∀ v ∈ p.1, Term.Carries A v) ∧ Subst.Carries A p.2
  | [], _, _, _, hσ => gives_pure ⟨by simp, hσ⟩
  | v :: vs, taken, σ, hvs, hσ => by
    have hrest : ∀ u ∈ vs, Term.Carries A u := (forall_mem_cons.mp hvs).2
    have hkeep : Gives (Subst.renameBinders inc vs taken σ >>= fun p => pure (v :: p.1, p.2))
        fun p => (∀ v ∈ p.1, Term.Carries A v) ∧ Subst.Carries A p.2 := by
      refine gives_bind (renameBinders inc vs taken hrest hσ) fun p hp => gives_pure ⟨?_, hp.2⟩
      exact forall_mem_cons.mpr ⟨hvs v mem_cons_self, hp.1⟩
    unfold Subst.renameBinders
    split
    · next n _ =>
      split
      · refine gives_bind (gives_leaf (A := A) _) fun r hr => ?_
        refine gives_bind (renameBinders inc vs _ hrest (hσ.insert hr)) fun p hp => ?_
        exact gives_pure ⟨forall_mem_cons.mpr ⟨hr, hp.1⟩, hp.2⟩
      · exact hkeep
    · exact hkeep

namespace Term

variable {A : Term → Prop}

/-- Nodes that carry only axioms of the kind are met, and nothing else is kept track
    of. -/
def carrying (A : Term → Prop) : Passage Unit where
  fits _ _ := True
  met _ t := Carries A t
  ready σ _ _ := σ.Carries A
  becomes _ _ _ := True
  met_mono _ h := h
  ready_mono _ h := h
  becomes_of_ident _ _ _ h := h

theorem leaves_substFirst {σ : Subst} {t : Term} {memo : NodeMap Term}
    (ih : ∀ c ∈ t.children, (carrying A).Substitutes c) (ht : Carries A t) (hσ : σ.Carries A)
    (hmemo : (carrying A).Remembers σ () memo) :
    Leaves (carrying A).fits () (substFirst σ σ.incoming t memo) ((carrying A).Rebuilt σ t) := by
  unfold substFirst
  split
  · next r hfound =>
    rcases Option.bind_eq_some_iff.mp hfound with ⟨n, _, hr⟩
    exact leaves_pure ⟨hσ n r hr, trivial, hmemo⟩
  · split
    · next hmeets =>
      -- Below a quantifier the substitution is another one, and the memory is not used.
      rcases getLast?_of_meets hmeets with ⟨b, hb⟩
      have hbody := mem_of_getLast? hb
      refine leaves_bind (Subst.Carries.renameBinders σ.incoming _ _
        (fun v hv => ht.operand (mem_of_mem_dropLast hv)) (hσ.eraseAll _)).leaves
        fun _ p _ hp => ?_
      refine leaves_bind ((ih b hbody).substLast (ht.operand hbody) hp.2 (fun _ => trivial) hb)
        fun _ body _ hr => ?_
      rcases hr with ⟨b', rfl, hb', _⟩
      have hcs : ∀ c ∈ p.1 ++ [b'], Carries A c :=
        forall_mem_append.mpr ⟨hp.1, forall_mem_singleton.mpr hb'⟩
      exact leaves_bind (ht.withChildren hcs).leaves fun _ r _ hr =>
        leaves_pure ⟨hr, trivial, hmemo⟩
    · refine leaves_bind (Passage.leaves_substNodes ih (fun c hc => ⟨ht.operand hc, hσ⟩) hmemo)
        fun _ p _ hp => ?_
      exact leaves_bind (ht.withChildren hp.1).leaves fun _ r _ hr =>
        leaves_pure ⟨hr, trivial, hp.2.2⟩

theorem Carries.subst {t : Term} (ht : Carries A t) {σ : Subst} (hσ : σ.Carries A) :
    Gives (t.subst σ) (Carries A) := by
  have h : (carrying A).Substitutes t :=
    Passage.substitutes_of_first (fun _ ih _ _ _ => leaves_substFirst ih) t
  intro s
  rcases h.subst (w := ()) ht hσ (fun _ => trivial) s trivial with ⟨_, _, _, hr⟩
  exact hr.1

end Term

end Vouch
