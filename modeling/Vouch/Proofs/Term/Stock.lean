import Mathlib.Data.List.Forall2
import Mathlib.Data.List.Nodup
import Mathlib.Data.Set.Insert
import Vouch.Proofs.Names.Generated

/-!
# What a Supply Has Made

Node identities are only worth something if two nodes with the same identity are the
same node. No single term can promise that: it is a property of everything built from
one supply. That everything exists in proofs only.

## Main definitions

* `Stock`: Terms with unambiguous identities.
* `Leaves`: A computation leaves something larger in which its result is as described.
* `Builds`: The same for stocks.

## Theorems

* `leaves_bind`: One computation after another.
* `builds_make`: A new node is in the stock.
* `Theory.builds_make`: So is one with axioms.
-/

namespace Vouch

open List

universe u v

/-- Terms with unambiguous identities, and a bound on the numbers in generated
    names. -/
structure Stock where
  terms : Set Term
  names : Nat
  closed : ∀ t ∈ terms, ∀ c ∈ t.children, c ∈ terms
  identified : ∀ t ∈ terms, ∀ u ∈ terms, t.ident = u.ident → t = u

namespace Stock

/-- Nothing is lost from the first stock to the second. -/
protected def le (W X : Stock) : Prop :=
  W.terms ⊆ X.terms ∧ W.names ≤ X.names

instance : LE Stock := ⟨Stock.le⟩

theorem refl (W : Stock) : W ≤ W :=
  ⟨subset_rfl, le_rfl⟩

theorem trans {W X Y : Stock} (h : W ≤ X) (h' : X ≤ Y) : W ≤ Y :=
  ⟨h.1.trans h'.1, h.2.trans h'.2⟩

instance : Preorder Stock where
  le_refl := refl
  le_trans _ _ _ := trans

/-- The nodes and names that the supply makes next are not in the stock. -/
structure Fits (W : Stock) (s : Supply) : Prop where
  below : ∀ t ∈ W.terms, t.ident.family = s.family → t.ident.index < s.nextNode
  names_eq : s.nextName = W.names

/-- The stock without terms. -/
def empty (names : Nat) : Stock where
  terms := ∅
  names := names
  closed := by simp
  identified := by simp

theorem fits_empty (s : Supply) : (empty s.nextName).Fits s :=
  ⟨by simp [empty], rfl⟩

/-- The stock of some nodes with identities of their own. -/
def ofList (ts : List Term) (names : Nat) (hcs : ∀ t ∈ ts, ∀ c ∈ t.children, c ∈ ts)
    (hids : (ts.map Term.ident).Nodup) : Stock where
  terms := {t | t ∈ ts}
  names := names
  closed := hcs
  identified _ ht _ hu h := inj_on_of_nodup_map hids ht hu h

theorem fits_ofList {ts : List Term} {names : Nat}
    {hcs : ∀ t ∈ ts, ∀ c ∈ t.children, c ∈ ts} {hids : (ts.map Term.ident).Nodup} {s : Supply}
    (hs : ∀ t ∈ ts, t.ident.index < s.nextNode) (hnames : s.nextName = names) :
    (ofList ts names hcs hids).Fits s :=
  ⟨fun t ht _ => hs t ht, hnames⟩

end Stock

/-- Started with something that fits the supply, the computation leaves something
    larger that fits what is left of it, in which its result is as described. -/
def Leaves {World : Type} [Preorder World] {α : Type} (fits : World → Supply → Prop) (w : World)
    (m : Fresh α) (Q : World → α → Prop) : Prop :=
  ∀ s, fits w s → ∃ v, w ≤ v ∧ fits v (m.run s).2 ∧ Q v (m.run s).1

section Rules

variable {World α β : Type} [Preorder World] {fits : World → Supply → Prop} {w : World}
  {Q : World → α → Prop}

theorem leaves_pure {a : α} (h : Q w a) : Leaves fits w (pure a) Q :=
  fun _ hs => ⟨w, le_rfl, hs, h⟩

variable {R : World → β → Prop} {f : α → Fresh β}

/-- What the first leaves, the second starts with. -/
theorem leaves_bind {m : Fresh α} (hm : Leaves fits w m Q)
    (hf : ∀ v a, w ≤ v → Q v a → Leaves fits v (f a) R) : Leaves fits w (m >>= f) R := by
  intro s hs
  rcases hm s hs with ⟨v, hwv, hv, hQ⟩
  rcases hf v _ hwv hQ _ hv with ⟨u, hvu, hu, hR⟩
  exact ⟨u, hwv.trans hvu, hu, hR⟩

theorem Leaves.mono {m : Fresh α} {Q' : World → α → Prop} (hm : Leaves fits w m Q)
    (h : ∀ v a, w ≤ v → Q v a → Q' v a) : Leaves fits w m Q' := by
  intro s hs
  rcases hm s hs with ⟨v, hwv, hv, hQ⟩
  exact ⟨v, hwv, hv, h v _ hwv hQ⟩

end Rules

/-- Started with the stock, the computation leaves a larger one in which its
    result is as described. -/
abbrev Builds {α : Type} (W : Stock) (m : Fresh α) (Q : Stock → α → Prop) : Prop :=
  Leaves Stock.Fits W m Q

/-- The second supply is a later state of the first. -/
structure Supply.Advances (s t : Supply) : Prop where
  family : t.family = s.family
  node : s.nextNode ≤ t.nextNode
  name : s.nextName ≤ t.nextName

/-- A stock with a larger bound on generated numbers. -/
def Stock.raise (W : Stock) (names : Nat) : Stock :=
  { W with names }

variable {W : Stock} {cs : List Term}

theorem Stock.fits_raise {s t : Supply} (hs : W.Fits s) (h : s.Advances t) :
    W ≤ W.raise t.nextName ∧ (W.raise t.nextName).Fits t := by
  refine ⟨⟨subset_rfl, ?_⟩, ⟨fun u hu hfam => ?_, rfl⟩⟩
  · rw [← hs.names_eq]
    exact h.name
  · have := hs.below u hu (hfam.trans h.family)
    have := h.node
    omega

theorem builds_of_advances {α : Type} {m : Fresh α} (h : ∀ s : Supply, s.Advances (m.run s).2) :
    Builds W m fun _ _ => True := by
  intro s hs
  rcases Stock.fits_raise hs (h s) with ⟨hle, hfits⟩
  exact ⟨_, hle, hfits, trivial⟩

theorem Fresh.builds_name (W : Stock) (base : String) : Builds W (Fresh.name base) fun X n =>
      ∃ k, W.names ≤ k ∧ k < X.names ∧ n = versionName base k := by
  intro s hs
  have hadv : s.Advances ((Fresh.name base).run s).2 := ⟨rfl, le_rfl, Nat.le_succ _⟩
  rcases Stock.fits_raise hs hadv with ⟨hle, hfits⟩
  exact ⟨_, hle, hfits, s.nextName, hs.names_eq.ge, Nat.lt_succ_self _, rfl⟩

theorem Stock.exists_insert {s : Supply} (hs : W.Fits s) (hcs : ∀ c ∈ cs, c ∈ W.terms) (h : Head)
    (as : List Term) :
    ∃ X : Stock, X.terms = insert (.node ⟨s.family, s.nextNode⟩ h cs as) W.terms ∧
      X.names = W.names ∧ X.Fits { s with nextNode := s.nextNode + 1 } := by
  -- No term of the stock has the identity of the new node.
  have hnew : ∀ u ∈ W.terms, u.ident ≠ ⟨s.family, s.nextNode⟩ := by
    intro u hu hid
    have := hs.below u hu (by rw [hid])
    rw [hid] at this
    exact Nat.lt_irrefl _ this
  refine ⟨{ terms := insert (.node ⟨s.family, s.nextNode⟩ h cs as) W.terms
            names := W.names, closed := ?_, identified := ?_ }, rfl, rfl, ?_, hs.names_eq⟩
  · rintro t (rfl | ht) c hc
    · exact Set.mem_insert_of_mem _ (hcs c hc)
    · exact Set.mem_insert_of_mem _ (W.closed t ht c hc)
  · rintro t (rfl | ht) u (rfl | hu) hid
    · rfl
    · exact absurd hid.symm (hnew u hu)
    · exact absurd hid (hnew t ht)
    · exact W.identified t ht u hu hid
  · rintro t (rfl | ht) hfam
    · exact Nat.lt_succ_self _
    · exact Nat.lt_succ_of_lt (hs.below t ht hfam)

theorem builds_insert (hcs : ∀ c ∈ cs, c ∈ W.terms) (h : Head) (as : List Term) :
    Builds W (Term.make h cs as) fun X t =>
      X.terms = insert t W.terms ∧ t.head = h ∧ t.children = cs ∧ t.axioms = as := by
  intro s hs
  rcases Stock.exists_insert hs hcs h as with ⟨X, hterms, hnames, hX⟩
  exact ⟨X, ⟨hterms ▸ Set.subset_insert _ _, hnames.ge⟩, hX, hterms, rfl, rfl, rfl⟩

/-- What a new node is: a member of the stock with the given head and
    operands. -/
def Term.Made (h : Head) (cs : List Term) (X : Stock) (t : Term) : Prop :=
  t ∈ X.terms ∧ t.head = h ∧ t.children = cs

theorem builds_make_new (hcs : ∀ c ∈ cs, c ∈ W.terms) (h : Head) (as : List Term) :
    Builds W (Term.make h cs as) fun X t => t ∉ W.terms ∧ Term.Made h cs X t := by
  intro s hs
  rcases builds_insert hcs h as s hs with ⟨X, hWX, hX, hterms, hhead, hts, _⟩
  refine ⟨X, hWX, hX, fun hmem => ?_, hterms ▸ Set.mem_insert _ _, hhead, hts⟩
  exact Nat.lt_irrefl _ (hs.below _ hmem rfl)

theorem builds_make (hcs : ∀ c ∈ cs, c ∈ W.terms) (h : Head) (as : List Term) :
    Builds W (Term.make h cs as) (Term.Made h cs) :=
  (builds_make_new hcs h as).mono fun _ _ _ ht => ht.2

namespace Term

variable {W : Stock} {cs : List Term} {t : Term}

theorem eq_of_map_ident : ∀ {ts us : List Term}, (∀ t ∈ ts, t ∈ W.terms) →
    (∀ u ∈ us, u ∈ W.terms) → ts.map ident = us.map ident → ts = us
  | [], us, _, _, h => by
    rw [map_nil] at h
    exact (map_eq_nil_iff.mp h.symm).symm
  | t :: ts, [], _, _, h => by simp at h
  | t :: ts, u :: us, ht, hu, h => by
    rw [map_cons, map_cons, List.cons.injEq] at h
    rw [W.identified t (ht t (by simp)) u (hu u (by simp)) h.1,
      eq_of_map_ident (fun x hx => ht x (by simp [hx])) (fun x hx => hu x (by simp [hx])) h.2]

theorem withChildren_cases (ht : t ∈ W.terms) (hcs : ∀ c ∈ cs, c ∈ W.terms) :
    cs = t.children ∧ t.withChildren cs = pure t ∨
      cs ≠ t.children ∧ t.withChildren cs = make t.head cs t.axioms := by
  unfold withChildren
  split
  · next h =>
    have hids : cs.map ident = t.children.map ident := by simpa using h
    exact Or.inl ⟨eq_of_map_ident hcs (W.closed t ht) hids, rfl⟩
  · next h => exact Or.inr ⟨fun heq => h (by simp [heq]), rfl⟩

theorem builds_withChildren_new (ht : t ∈ W.terms) (hcs : ∀ c ∈ cs, c ∈ W.terms) :
    Builds W (t.withChildren cs) fun X b =>
      Made t.head cs X b ∧ (b ∈ W.terms → b = t) ∧ (cs = t.children → b = t) := by
  rcases withChildren_cases ht hcs with ⟨heq, hrun⟩ | ⟨hne, hrun⟩ <;> rw [hrun]
  · exact leaves_pure ⟨⟨ht, rfl, heq.symm⟩, fun _ => rfl, fun _ => rfl⟩
  · refine (builds_make_new hcs _ _).mono fun X b _ hb => ?_
    exact ⟨hb.2, fun hmem => absurd hmem hb.1, fun heq => absurd heq hne⟩

theorem builds_withChildren (ht : t ∈ W.terms) (hcs : ∀ c ∈ cs, c ∈ W.terms) :
    Builds W (t.withChildren cs) (Made t.head cs) :=
  (builds_withChildren_new ht hcs).mono fun _ _ _ hb => hb.1

end Term

theorem exists_of_forall₂_left {α : Type u} {β : Type v} {R : α → β → Prop} {as : List α}
    {bs : List β} (h : Forall₂ R as bs) {a : α} (ha : a ∈ as) : ∃ b ∈ bs, R a b := by
  induction h with
  | nil => simp at ha
  | cons hab _ ih =>
    rcases mem_cons.mp ha with rfl | ha
    · exact ⟨_, by simp, hab⟩
    · rcases ih ha with ⟨b, hb, hr⟩
      exact ⟨b, by simp [hb], hr⟩

theorem exists_of_forall₂_right {α : Type u} {β : Type v} {R : α → β → Prop} {as : List α}
    {bs : List β} (h : Forall₂ R as bs) {b : β} (hb : b ∈ bs) : ∃ a ∈ as, R a b :=
  exists_of_forall₂_left h.flip hb

theorem mem_of_lookup {α β : Type} [BEq α] [LawfulBEq α] {table : List (α × β)} {a : α} {b : β}
    (h : table.lookup a = some b) : (a, b) ∈ table := by
  rcases lookup_eq_some_iff.mp h with ⟨l, r, hl, _⟩
  rw [hl]
  exact mem_append_right _ (mem_cons_self ..)

namespace Theory

/-- The schemas of the theory only advance the supply. -/
def Advances (th : Theory) : Prop :=
  ∀ e ∈ th.schemas, ∀ cs, ∀ s : Supply, s.Advances ((e.2 cs).run s).2

theorem advances_standard : standard.Advances := by
  intro e he cs s
  simp only [standard, mem_cons, not_mem_nil, or_false] at he
  rcases he with rfl | rfl | rfl | rfl | rfl | rfl <;> exact ⟨rfl, le_rfl, le_rfl⟩

variable {th : Theory} {W : Stock} {cs : List Term}

theorem builds_make_new (hth : th.Advances) (hcs : ∀ c ∈ cs, c ∈ W.terms) (op : Op)
    (sort : TermSort) :
    Builds W (th.make op sort cs) fun X t => t ∉ W.terms ∧ Term.Made { op, sort } cs X t := by
  unfold make
  split
  · next schema hfound =>
    refine leaves_bind (builds_of_advances (hth _ (mem_of_lookup hfound) cs)) fun X as hWX _ => ?_
    refine (Vouch.builds_make_new (fun c hc => hWX.1 (hcs c hc)) _ _).mono fun Y t _ ht => ?_
    exact ⟨fun hmem => ht.1 (hWX.1 hmem), ht.2⟩
  · exact Vouch.builds_make_new hcs _ _

theorem builds_make (hth : th.Advances) (hcs : ∀ c ∈ cs, c ∈ W.terms) (op : Op) (sort : TermSort) :
    Builds W (th.make op sort cs) (Term.Made { op, sort } cs) :=
  (builds_make_new hth hcs op sort).mono fun _ _ _ ht => ht.2

end Theory

end Vouch
