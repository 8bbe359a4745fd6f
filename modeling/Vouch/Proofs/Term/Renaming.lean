import Vouch.Proofs.Term.Scan
import Vouch.Term.Subst

/-!
# Renaming Binders

When a substitution goes below a quantifier, a variable is renamed if its name comes in
with a replacement, so that it would be captured, and the substitution grows by these
renamings. The new name has a number and is not taken.

## Main definitions

* `Subst.Renaming`: What renaming binders can do.
* `Subst.Rebound`: What a substitution makes of a quantifier.

## Theorems

* `Subst.builds_renameBinders`: Renaming binders does what it can.
* `Subst.Renaming.names`: Which names are bound afterwards.
* `Subst.Renaming.find?_of_incoming`: What replaces a renamed binder.
-/

namespace Vouch

open List

namespace NameMap

variable {β : Type} {m : NameMap β}

theorem mem_values_eraseAll {ns : List String} {b : β} (h : b ∈ (m.eraseAll ns).values) :
    b ∈ m.values := by
  rcases mem_map.mp h with ⟨e, he, rfl⟩
  exact mem_map.mpr ⟨e, (mem_filter.mp he).1, rfl⟩

theorem mem_values_insert {n : String} {a b : β} (h : b ∈ (m.insert n a).values) :
    b = a ∨ b ∈ m.values := by
  rcases mem_cons.mp h with h | h
  · exact .inl h
  · exact .inr (mem_values_eraseAll h)

theorem mem_values_insertAll {entries : List (String × β)} {b : β} : ∀ {m : NameMap β},
    b ∈ (m.insertAll entries).values → b ∈ m.values ∨ ∃ e ∈ entries, e.2 = b := by
  induction entries with
  | nil => exact fun h => .inl h
  | cons e entries ih =>
    intro m h
    rcases ih (m := m.insert e.1 e.2) h with h | ⟨e', he', hb⟩
    · rcases mem_values_insert h with rfl | h
      · exact .inr ⟨e, mem_cons_self, rfl⟩
      · exact .inl h
    · exact .inr ⟨e', mem_cons_of_mem _ he', hb⟩

/-- Something holds of each entry. -/
def Each (E : String → β → Prop) (m : NameMap β) : Prop :=
  ∀ n b, m.find? n = some b → E n b

section Each

variable {E : String → β → Prop} {m : NameMap β}

theorem each_empty : Each E (∅ : NameMap β) :=
  fun _ _ h => by cases h

theorem Each.eraseAll (h : m.Each E) (ns : List String) : (m.eraseAll ns).Each E := by
  intro n b hb
  rw [find?_eraseAll] at hb
  split at hb
  · cases hb
  · exact h n b hb

theorem Each.insert (h : m.Each E) {k : String} {a : β} (ha : E k a) : (m.insert k a).Each E := by
  intro n b hb
  rw [find?_insert] at hb
  split at hb
  · next hn =>
    rw [← Option.some.inj hb, hn]
    exact ha
  · exact h n b hb

theorem Each.insertAll {entries : List (String × β)} : ∀ {m : NameMap β}, m.Each E →
    (∀ e ∈ entries, E e.1 e.2) → (m.insertAll entries).Each E := by
  induction entries with
  | nil => exact fun hm _ => hm
  | cons e entries ih =>
    intro m hm hentries
    exact ih (hm.insert (hentries e mem_cons_self)) fun e' he' =>
      hentries e' (mem_cons_of_mem _ he')

end Each

theorem find?_of_isEmpty (h : m.isEmpty) (n : String) : m.find? n = none := by
  obtain ⟨entries⟩ := m
  have hnil : entries = [] := by simpa [isEmpty] using h
  rw [hnil]
  rfl

end NameMap

theorem mem_filterMap_cons {α β : Type} {f : α → Option β} {a : α} {as : List α} {b : β}
    (h : b ∈ as.filterMap f) : b ∈ (a :: as).filterMap f := by
  rcases mem_filterMap.mp h with ⟨c, hc, hb⟩
  exact mem_filterMap.mpr ⟨c, by simp [hc], hb⟩

theorem Term.bindersOf_of_heads {us vs : List Term}
    (h : Forall₂ (fun u v => u.head = v.head) us vs) : bindersOf us = bindersOf vs := by
  induction h with
  | nil => rfl
  | cons huv _ ih =>
    unfold bindersOf at ih ⊢
    rw [filterMap_cons, filterMap_cons, ih, name?_eq_of_head huv, sort, sort, huv]

namespace Subst

variable {σ : Subst}

/-- The name is free in a replacement. -/
def Incoming (σ : Subst) (n : String) : Prop :=
  ∃ r ∈ σ.values, Term.Free n r

theorem mem_incoming {W : Stock} (hσ : ∀ r ∈ σ.values, r ∈ W.terms) {n : String} :
    n ∈ σ.incoming ↔ σ.Incoming n := by
  rw [incoming, mem_flatMap]
  constructor
  · rintro ⟨r, hr, hn⟩
    exact ⟨r, hr, (Term.mem_freeVars (hσ r hr)).mp hn⟩
  · rintro ⟨r, hr, hn⟩
    exact ⟨r, hr, (Term.mem_freeVars (hσ r hr)).mpr hn⟩

theorem Incoming.of_insert {n m : String} {r : Term} (h : Incoming (σ.insert n r) m) :
    Term.Free m r ∨ σ.Incoming m := by
  rcases h with ⟨s, hs, hm⟩
  rcases NameMap.mem_values_insert hs with rfl | hs
  · exact .inl hm
  · exact .inr ⟨s, hs, hm⟩

/-- What renaming the binders that capture an incoming name can do: keep a
    binder, or give it a numbered name that is not taken and substitute it. -/
inductive Renaming (inc : List String) :
    List String → List Term → Subst → List Term → Subst → Prop where
  | nil {taken : List String} {σ : Subst} : Renaming inc taken [] σ [] σ
  | keep {taken : List String} {σ σ' : Subst} {v : Term} {vs vs' : List Term} :
      (∀ n, v.name? = some n → n ∉ inc) → Renaming inc taken vs σ vs' σ' →
      Renaming inc taken (v :: vs) σ (v :: vs') σ'
  | rename {taken : List String} {σ σ' : Subst} {v u : Term} {vs vs' : List Term} {n : String}
      {k : Nat} : v.name? = some n → n ∈ inc → renamedBinder n k ∉ taken →
      u.name? = some (renamedBinder n k) → u.sort = v.sort → u.children = [] →
      Renaming inc (renamedBinder n k :: taken) vs (σ.insert n u) vs' σ' →
      Renaming inc taken (v :: vs) σ (u :: vs') σ'

/-- The induction is on the binders; the substitution grows along with them. -/
theorem builds_renameBinders (inc : List String) : ∀ {W : Stock} (vs : List Term)
    (taken : List String) (σ : Subst), (∀ v ∈ vs, v ∈ W.terms) → (∀ r ∈ σ.values, r ∈ W.terms) →
    Builds W (renameBinders inc vs taken σ) fun X p =>
      Renaming inc taken vs σ p.1 p.2 ∧ (∀ v ∈ p.1, v ∈ X.terms) ∧ ∀ r ∈ p.2.values, r ∈ X.terms
  | W, [], taken, σ, _, hσ => leaves_pure ⟨.nil, by simp, hσ⟩
  | W, v :: vs, taken, σ, hvs, hσ => by
    have hv : v ∈ W.terms := hvs v (by simp)
    have hrest : ∀ u ∈ vs, u ∈ W.terms := fun u hu => hvs u (by simp [hu])
    -- A binder that stays: the rest is renamed and the binder put in front.
    have hkeep : (∀ n, v.name? = some n → n ∉ inc) →
        Builds W (do
            let p ← renameBinders inc vs taken σ
            return (v :: p.1, p.2)) fun X p =>
          Renaming inc taken (v :: vs) σ p.1 p.2 ∧ (∀ v ∈ p.1, v ∈ X.terms) ∧
            ∀ r ∈ p.2.values, r ∈ X.terms := by
      intro hnot
      refine leaves_bind (builds_renameBinders inc vs taken σ hrest hσ) fun X p hWX hp => ?_
      refine leaves_pure ⟨.keep hnot hp.1, fun u hu => ?_, hp.2.2⟩
      rcases mem_cons.mp hu with rfl | hu
      · exact hWX.1 hv
      · exact hp.2.1 u hu
    rw [renameBinders]
    split
    · next n hn =>
      split
      · next hin =>
        rcases freshNumbered_spec n taken with ⟨hnew, k, hk⟩
        refine leaves_bind (builds_make (W := W) (forall_mem_nil _) _ _) fun X u hWX hu => ?_
        have hσ' : ∀ r ∈ (σ.insert n u).values, r ∈ X.terms := by
          intro r hr
          rcases NameMap.mem_values_insert hr with rfl | hr
          · exact hu.1
          · exact hWX.1 (hσ r hr)
        refine leaves_bind (builds_renameBinders inc vs _ (σ.insert n u)
          (fun w hw => hWX.1 (hrest w hw)) hσ') fun Y p hXY hp => ?_
        have huname : u.name? = some (renamedBinder n k) := by
          rw [Term.name?, Term.op, Term.payload, hu.2.1, hk]
        have husort : u.sort = v.sort := by
          rw [Term.sort, hu.2.1]
        refine leaves_pure ⟨.rename hn (by simpa using hin) (hk ▸ hnew) huname husort hu.2.2
          (hk ▸ hp.1), fun w hw => ?_, hp.2.2⟩
        rcases mem_cons.mp hw with rfl | hw
        · exact hXY.1 hu.1
        · exact hp.2.1 w hw
      · next hin =>
        refine hkeep fun m hm => ?_
        rw [hn, Option.some.injEq] at hm
        simpa [hm] using hin
    · next hn => exact hkeep fun m hm => by simp [hn] at hm

namespace Renaming

variable {inc taken : List String} {σ' : Subst} {vs vs' : List Term}

theorem refl (taken : List String) (σ : Subst) {vs : List Term}
    (h : ∀ n ∈ vs.filterMap Term.name?, n ∉ inc) : Renaming inc taken vs σ vs σ := by
  induction vs with
  | nil => exact .nil
  | cons v vs ih =>
    refine .keep (fun n hn => h n ?_) (ih fun n hn => h n (mem_filterMap_cons hn))
    exact mem_filterMap.mpr ⟨v, by simp, hn⟩

variable (h : Renaming inc taken vs σ vs' σ')
include h

theorem names : ∀ {m : String}, m ∈ vs'.filterMap Term.name? →
    (m ∈ vs.filterMap Term.name? ∧ m ∉ inc) ∨
      ∃ n k, n ∈ vs.filterMap Term.name? ∧ n ∈ inc ∧ m = renamedBinder n k ∧ m ∉ taken := by
  induction h with
  | nil =>
    intro m hm
    simp at hm
  | keep hnot _ ih =>
    intro m hm
    rcases mem_filterMap.mp hm with ⟨u, hu, hum⟩
    rcases mem_cons.mp hu with rfl | hu
    · exact .inl ⟨mem_filterMap.mpr ⟨u, by simp, hum⟩, hnot m hum⟩
    · rcases ih (mem_filterMap.mpr ⟨u, hu, hum⟩) with ⟨hm, hinc⟩ | ⟨n, k, hn, hrest⟩
      · exact .inl ⟨mem_filterMap_cons hm, hinc⟩
      · exact .inr ⟨n, k, mem_filterMap_cons hn, hrest⟩
  | @rename _ _ _ v u _ _ n k hv hn hk hu _ _ _ ih =>
    intro m hm
    rcases mem_filterMap.mp hm with ⟨w, hw, hwm⟩
    rcases mem_cons.mp hw with rfl | hw
    · rw [hu, Option.some.injEq] at hwm
      exact .inr ⟨n, k, mem_filterMap.mpr ⟨v, by simp, hv⟩, hn, hwm.symm, hwm ▸ hk⟩
    · rcases ih (mem_filterMap.mpr ⟨w, hw, hwm⟩) with ⟨hm, hinc⟩ | ⟨n', k', hn', hi, he, ht⟩
      · exact .inl ⟨mem_filterMap_cons hm, hinc⟩
      · exact .inr ⟨n', k', mem_filterMap_cons hn', hi, he, fun h => ht (by simp [h])⟩

theorem kept : ∀ {n : String}, n ∈ vs.filterMap Term.name? → n ∉ inc →
    n ∈ vs'.filterMap Term.name? := by
  induction h with
  | nil => exact fun h _ => h
  | keep _ _ ih =>
    intro n hn hinc
    rcases mem_filterMap.mp hn with ⟨u, hu, hun⟩
    rcases mem_cons.mp hu with rfl | hu
    · exact mem_filterMap.mpr ⟨u, by simp, hun⟩
    · exact mem_filterMap_cons (ih (mem_filterMap.mpr ⟨u, hu, hun⟩) hinc)
  | rename hv hin _ _ _ _ _ ih =>
    intro n hn hinc
    rcases mem_filterMap.mp hn with ⟨u, hu, hun⟩
    rcases mem_cons.mp hu with rfl | hu
    · rw [hv, Option.some.injEq] at hun
      exact absurd (hun ▸ hin) hinc
    · exact mem_filterMap_cons (ih (mem_filterMap.mpr ⟨u, hu, hun⟩) hinc)

theorem find?_of_not_mem : ∀ {n : String}, n ∉ vs.filterMap Term.name? →
    σ'.find? n = σ.find? n := by
  induction h with
  | nil => exact fun _ => rfl
  | keep _ _ ih => exact fun hn => ih fun h => hn (mem_filterMap_cons h)
  | @rename _ _ _ v _ _ _ m _ hv _ _ _ _ _ _ ih =>
    intro n hn
    have hne : n ≠ m := by
      rintro rfl
      exact hn (mem_filterMap.mpr ⟨v, by simp, hv⟩)
    rw [ih fun h => hn (mem_filterMap_cons h), NameMap.find?_insert, if_neg hne]

theorem incoming : ∀ {m : String}, Incoming σ' m →
    σ.Incoming m ∨ (m ∉ taken ∧ m ∈ vs'.filterMap Term.name?) := by
  induction h with
  | nil => exact .inl
  | keep _ _ ih => exact fun hm => (ih hm).imp_right fun h => ⟨h.1, mem_filterMap_cons h.2⟩
  | @rename _ _ _ _ u _ _ _ _ _ _ hk hu _ _ _ ih =>
    intro m hm
    rcases ih hm with hm | ⟨hnot, hm⟩
    · rcases hm.of_insert with hm | hm
      · rw [(Term.free_var hu).mp hm]
        exact .inr ⟨hk, mem_filterMap.mpr ⟨u, by simp, hu⟩⟩
      · exact .inl hm
    · exact .inr ⟨fun h => hnot (by simp [h]), mem_filterMap_cons hm⟩

theorem vars : ∀ {u : Term}, u ∈ vs' →
    u ∈ vs ∨ (u.children = [] ∧ ∃ n, u.name? = some n) := by
  induction h with
  | nil => exact .inl
  | keep _ _ ih =>
    intro u hu
    rcases mem_cons.mp hu with rfl | hu
    · exact .inl (by simp)
    · exact (ih hu).imp_left fun h => by simp [h]
  | rename _ _ _ hu _ hc _ ih =>
    intro w hw
    rcases mem_cons.mp hw with rfl | hw
    · exact .inr ⟨hc, _, hu⟩
    · exact (ih hw).imp_left fun h => by simp [h]

theorem values : ∀ {r : Term}, r ∈ σ'.values →
    r ∈ σ.values ∨ (r.children = [] ∧ ∃ n, r.name? = some n) := by
  induction h with
  | nil => exact .inl
  | keep _ _ ih => exact ih
  | rename _ _ _ hu _ hc _ ih =>
    intro r hr
    rcases ih hr with hr | hr
    · rcases NameMap.mem_values_insert hr with rfl | hr
      · exact .inr ⟨hc, _, hu⟩
      · exact .inl hr
    · exact .inr hr

theorem find?_of_not_incoming : ∀ {n : String}, n ∉ inc → σ'.find? n = σ.find? n := by
  induction h with
  | nil => exact fun _ => rfl
  | keep _ _ ih => exact ih
  | rename _ hin _ _ _ _ _ ih =>
    intro n hn
    have hne := ne_of_mem_of_not_mem hin hn
    rw [ih hn, NameMap.find?_insert, if_neg hne.symm]

theorem find?_of_incoming : ∀ {n : String}, n ∈ inc →
    n ∈ vs.filterMap Term.name? → ∃ u k, σ'.find? n = some u ∧
      u.name? = some (renamedBinder n k) ∧ renamedBinder n k ∈ vs'.filterMap Term.name? ∧
      renamedBinder n k ∉ taken := by
  induction h with
  | nil => exact fun _ hn => absurd hn not_mem_nil
  | @keep _ _ _ v vs _ hnot _ ih =>
    intro n hin hn
    have htail : n ∈ vs.filterMap Term.name? := by
      rcases mem_filterMap.mp hn with ⟨w, hw, hwn⟩
      rcases mem_cons.mp hw with rfl | hw
      · exact absurd hin (hnot n hwn)
      · exact mem_filterMap.mpr ⟨w, hw, hwn⟩
    rcases ih hin htail with ⟨u, k, hfind, hu, hmem, hnew⟩
    exact ⟨u, k, hfind, hu, mem_filterMap_cons hmem, hnew⟩
  | @rename _ _ _ v u vs vs' m k hv _ hk hu _ _ hrest ih =>
    intro n hin hn
    by_cases htail : n ∈ vs.filterMap Term.name?
    · -- A later binder of the same name counts.
      rcases ih hin htail with ⟨w, j, hfind, hw, hmem, hnew⟩
      exact ⟨w, j, hfind, hw, mem_filterMap_cons hmem, fun h => hnew (by simp [h])⟩
    · have hnm : m = n := by
        rcases mem_filterMap.mp hn with ⟨w, hw, hwn⟩
        rcases mem_cons.mp hw with rfl | hw
        · rwa [hv, Option.some.injEq] at hwn
        · exact absurd (mem_filterMap.mpr ⟨w, hw, hwn⟩) htail
      rw [hnm] at hu hk
      refine ⟨u, k, ?_, hu, mem_filterMap.mpr ⟨u, by simp, hu⟩, hk⟩
      rw [hrest.find?_of_not_mem htail, hnm, NameMap.find?_insert, if_pos rfl]

end Renaming

/-- What a substitution makes of a quantifier `t` with the body `b`. The substitution
    that enters the quantifier is `outer`: it no longer replaces the bound names.
    Renaming makes `inner` of it, which goes on to the body. -/
structure Rebound (σ : Subst) (inc taken : List String) (outer inner : Subst) (t b : Term)
    (vs us : List Term) (r b' : Term) : Prop where
  op : t.op = .all
  body : t.children.getLast? = some b
  head : r.head = t.head
  children : r.children = us ++ [b']
  heads : Forall₂ (fun u v => u.head = v.head) us vs
  renamed : Renaming inc taken t.children.dropLast outer vs inner
  incoming : ∀ n, n ∈ inc ↔ σ.Incoming n
  taken : ∀ n, Term.Mentions n b ∨ n ∈ inc → n ∈ taken
  hidden : ∀ n ∈ t.boundNames, outer.find? n = none
  other : ∀ n, n ∉ t.boundNames → outer.find? n = σ.find? n
  values : ∀ q ∈ outer.values, q ∈ σ.values

namespace Rebound

variable {inc taken : List String} {outer inner : Subst} {t b r b' : Term} {vs us : List Term}
  (h : Rebound σ inc taken outer inner t b vs us r b')
include h

theorem op_result : r.op = .all :=
  (congrArg Head.op h.head).trans h.op

theorem body_result : r.children.getLast? = some b' := by
  rw [h.children, getLast?_concat]

theorem binders_result : r.binders = Term.bindersOf vs := by
  rw [Term.binders, h.children, dropLast_concat, Term.bindersOf_of_heads h.heads]

theorem boundNames_result : r.boundNames = vs.filterMap Term.name? := by
  rw [Term.boundNames_eq h.op_result, h.binders_result, Term.map_fst_bindersOf]

theorem incoming_inner {n : String} (hn : inner.Incoming n) :
    σ.Incoming n ∨ ¬ Term.Mentions n b := by
  rcases h.renamed.incoming hn with ⟨q, hq, hfree⟩ | ⟨hnot, _⟩
  · exact .inl ⟨q, h.values q hq, hfree⟩
  · exact .inr fun hm => hnot (h.taken n (.inl hm))

end Rebound

end Subst

end Vouch
