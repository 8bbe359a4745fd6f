import Vouch.Proofs.Term.Scan
import Vouch.Term.AxiomBag

/-!
# What a Bag Collects

The walk that fills a bag goes into an axiom when it puts it in the bag, so an axiom
that was there before the walk began is not gone into. What is added is therefore what
hangs on the nodes that are reached without passing through such an axiom. Nothing is
missing if the bag has with each axiom all that the axiom depends on.

## Main definitions

* `Term.Depends`: An axiom is attached to a node that is reached.
* `AxiomBag.Fills`: A walk has done all it had to.
* `AxiomBag.Complete`: With an axiom the bag has all that it depends on.

## Theorems

* `bags_hold_dependencies`: Collecting keeps that, and so does adding an axiom after what
  it depends on.
-/

namespace Vouch

open List

namespace Term

/-- The node is reached from a term through operands and through attached axioms of
    a kind. -/
inductive Reached (P : Term → Prop) (t : Term) : Term → Prop
  | self : Reached P t t
  | operand {u c : Term} : Reached P t u → c ∈ u.children → Reached P t c
  | attached {u a : Term} : Reached P t u → a ∈ u.axioms → P a → Reached P t a

/-- The axiom is attached to a node that is reached. -/
def Depends (P : Term → Prop) (t a : Term) : Prop :=
  ∃ u, Reached P t u ∧ a ∈ u.axioms

variable {P Q : Term → Prop} {t u a b : Term}

theorem Reached.mono (hPQ : ∀ a, P a → Q a) (h : Reached P t u) : Reached Q t u := by
  induction h with
  | self => exact .self
  | operand _ hc ih => exact .operand ih hc
  | attached _ ha hP ih => exact .attached ih ha (hPQ _ hP)

theorem Reached.trans (h : Reached P t u) (h' : Reached P u b) : Reached P t b := by
  induction h' with
  | self => exact h
  | operand _ hc ih => exact .operand ih hc
  | attached _ ha hP ih => exact .attached ih ha hP

theorem Reached.mem {W : Stock} (hW : ∀ t ∈ W.terms, ∀ a ∈ t.axioms, a ∈ W.terms)
    (ht : t ∈ W.terms) (h : Reached P t u) : u ∈ W.terms := by
  induction h with
  | self => exact ht
  | operand _ hc ih => exact W.closed _ ih _ hc
  | attached _ ha _ ih => exact hW _ ih _ ha

theorem Reached.cases_of_kind (h : Reached (fun _ => True) t u) :
    Reached P t u ∨ ∃ b, ¬ P b ∧ Reached (fun _ => True) b u := by
  induction h with
  | self => exact .inl .self
  | operand _ hc ih =>
    exact ih.imp (.operand · hc) fun ⟨b, hb, hreached⟩ => ⟨b, hb, .operand hreached hc⟩
  | @attached _ a _ ha _ ih =>
    rcases ih with hreached | ⟨b, hb, hreached⟩
    · by_cases hP : P a
      · exact .inl (.attached hreached ha hP)
      · exact .inr ⟨a, hP, .self⟩
    · exact .inr ⟨b, hb, .attached hreached ha trivial⟩

theorem sizeOf_lt_of_mem_axioms (h : a ∈ t.axioms) : sizeOf a < sizeOf t := by
  obtain ⟨id, hd, cs, as⟩ := t
  have hlt : sizeOf a < sizeOf as := sizeOf_lt_of_mem h
  simp only [node.sizeOf_spec]
  omega

end Term

open Term

namespace AxiomBag

variable {W : Stock} {bag : AxiomBag} {t a : Term} {ts news old : List Term} {s s' s'' : Filling}

/-- The bag has members of the stock, each once, and knows their identities. -/
structure Tidy (W : Stock) (bag : AxiomBag) : Prop where
  mem : ∀ a ∈ bag.items, a ∈ W.terms
  seen : ∀ i, i ∈ bag.seen ↔ i ∈ bag.items.map ident
  nodup : (bag.items.map ident).Nodup

theorem tidy_empty (W : Stock) : Tidy W {} :=
  ⟨by simp, by simp, by simp⟩

namespace Tidy

theorem contains_iff (h : Tidy W bag) (ht : t ∈ W.terms) :
    bag.contains t = true ↔ t ∈ bag.items := by
  rw [contains, Std.TreeSet.contains_iff_mem, h.seen]
  refine ⟨fun hid => ?_, mem_map_of_mem⟩
  rcases mem_map.mp hid with ⟨u, hu, hut⟩
  rwa [← W.identified u (h.mem u hu) t ht hut]

theorem insert_of_mem (h : Tidy W bag) (ht : t ∈ bag.items) : bag.insert t = bag :=
  if_pos ((h.contains_iff (h.mem t ht)).mpr ht)

theorem insert_of_notMem (h : Tidy W bag) (ht : t ∈ W.terms) (hnew : t ∉ bag.items) :
    bag.insert t = { items := bag.items ++ [t], seen := bag.seen.insert t.ident } :=
  if_neg fun hold => hnew ((h.contains_iff ht).mp hold)

theorem prefix_insert (h : Tidy W bag) (ht : t ∈ W.terms) :
    bag.items <+: (bag.insert t).items := by
  by_cases hold : t ∈ bag.items
  · rw [h.insert_of_mem hold]
  · rw [h.insert_of_notMem ht hold]
    exact prefix_append _ _

theorem insert (h : Tidy W bag) (ht : t ∈ W.terms) : Tidy W (bag.insert t) := by
  by_cases hold : t ∈ bag.items
  · rwa [h.insert_of_mem hold]
  rw [h.insert_of_notMem ht hold]
  refine ⟨fun a ha => ?_, fun i => ?_, ?_⟩
  · rcases mem_append.mp ha with ha | ha
    · exact h.mem a ha
    · rwa [mem_singleton.mp ha]
  · rw [Std.TreeSet.mem_insert, Std.LawfulEqCmp.compare_eq_iff_eq, h.seen, map_append,
      map_singleton, mem_append, mem_singleton, or_comm, eq_comm (b := i)]
  · have hid : t.ident ∉ bag.items.map ident := fun hid => hold ((h.contains_iff ht).mp
      (Std.TreeSet.contains_iff_mem.mpr ((h.seen _).mpr hid)))
    rw [map_append, map_singleton, nodup_append]
    exact ⟨h.nodup, by simp, by rintro i hi j hj rfl; exact hid (mem_singleton.mp hj ▸ hi)⟩

end Tidy

/-- Of some axioms those that are new are added, and they are the ones gone into. -/
structure Joins (W : Stock) (bag : AxiomBag) (ts news : List Term) : Prop where
  tidy : Tidy W (bag.insertAll ts).2
  items : (bag.insertAll ts).2.items = bag.items ++ news
  follow : ∀ s, fillMarked ts (bag.insertAll ts).1 s = fillList news s
  all : ∀ a ∈ ts, a ∈ bag.items ++ news
  new : ∀ a ∈ news, a ∈ ts ∧ a ∉ bag.items

theorem fill_of_visited (h : t.ident ∈ s.visited) : fill t s = s := by
  obtain ⟨id, hd, cs, as⟩ := t
  rw [fill]
  exact if_pos (Std.TreeSet.contains_iff_mem.mpr h)

theorem fill_of_new (h : t.ident ∉ s.visited) : fill t s =
    fillMarked t.axioms (s.bag.insertAll t.axioms).1
      (fillList t.children ⟨(s.bag.insertAll t.axioms).2, s.visited.insert t.ident⟩) := by
  obtain ⟨id, hd, cs, as⟩ := t
  rw [fill]
  exact if_neg fun hin => h (Std.TreeSet.contains_iff_mem.mp hin)

theorem insertAll_cons (bag : AxiomBag) (t : Term) (ts : List Term) : bag.insertAll (t :: ts) =
    ((!bag.contains t) :: ((bag.insert t).insertAll ts).1, ((bag.insert t).insertAll ts).2) :=
  rfl

theorem Tidy.exists_joins : ∀ {ts : List Term} {bag : AxiomBag}, Tidy W bag →
    (∀ a ∈ ts, a ∈ W.terms) → ∃ news, Joins W bag ts news
  | [], _, h, _ => by
    refine ⟨[], h, (append_nil _).symm, fun s => ?_, by simp, by simp⟩
    simp [fillMarked, fillList]
  | t :: ts, bag, h, hts => by
    have ht := hts t mem_cons_self
    rcases (h.insert ht).exists_joins (forall_mem_cons.mp hts).2
      with ⟨news, hnews⟩
    by_cases hold : t ∈ bag.items
    · have hitems : (bag.insert t).items = bag.items := by rw [h.insert_of_mem hold]
      refine ⟨news, hnews.tidy, hitems ▸ hnews.items, fun s => ?_, fun a ha => ?_, fun a ha => ?_⟩
      · rw [insertAll_cons, (h.contains_iff ht).mpr hold, fillMarked, hnews.follow]
        rfl
      · rcases mem_cons.mp ha with rfl | ha
        · exact mem_append_left _ hold
        · exact hitems ▸ hnews.all a ha
      · exact ⟨mem_cons_of_mem _ (hnews.new a ha).1, hitems ▸ (hnews.new a ha).2⟩
    · have hitems : (bag.insert t).items = bag.items ++ [t] := by
        rw [h.insert_of_notMem ht hold]
      have hmark : bag.contains t = false :=
        Bool.eq_false_iff.mpr fun hin => hold ((h.contains_iff ht).mp hin)
      have hall : (bag.insert t).items ++ news = bag.items ++ t :: news := by
        rw [hitems, append_assoc, singleton_append]
      refine ⟨t :: news, hnews.tidy, hall ▸ hnews.items, fun s => ?_, fun a ha => ?_,
        fun a ha => ?_⟩
      · rw [insertAll_cons, hmark, fillMarked, hnews.follow, fillList]
        rfl
      · rcases mem_cons.mp ha with rfl | ha
        · exact mem_append_right _ mem_cons_self
        · exact hall ▸ hnews.all a ha
      · rcases mem_cons.mp ha with rfl | ha
        · exact ⟨mem_cons_self, hold⟩
        · rcases hnews.new a ha with ⟨hmem, hnew⟩
          rw [hitems] at hnew
          exact ⟨mem_cons_of_mem _ hmem, fun hin => hnew (mem_append_left _ hin)⟩

/-- A walk has done all it had to from one state to another. -/
structure Fills (W : Stock) (D : Term → Prop) (s s' : Filling) : Prop where
  tidy : Tidy W s'.bag
  items : s.bag.items <+: s'.bag.items
  visited : ∀ i, i ∈ s.visited → i ∈ s'.visited
  added : ∀ a ∈ s'.bag.items, a ∉ s.bag.items → a.ident ∈ s'.visited ∧ D a
  entered : ∀ u ∈ W.terms, u.ident ∈ s'.visited → u.ident ∉ s.visited →
    (∀ c ∈ u.children, c.ident ∈ s'.visited) ∧ ∀ a ∈ u.axioms, a ∈ s'.bag.items

variable {D : Term → Prop}

theorem Fills.refl (h : Tidy W s.bag) : Fills W D s s := by
  refine ⟨h, prefix_rfl, fun _ hi => hi, fun _ ha hnew => ?_, fun _ _ hu hnew => ?_⟩
  · exact absurd ha hnew
  · exact absurd hu hnew

theorem Fills.trans (h : Fills W D s s') (h' : Fills W D s' s'') : Fills W D s s'' where
  tidy := h'.tidy
  items := h.items.trans h'.items
  visited i hi := h'.visited i (h.visited i hi)
  added a ha hnew := by
    by_cases hmem : a ∈ s'.bag.items
    · exact (h.added a hmem hnew).imp_left (h'.visited _)
    · exact h'.added a ha hmem
  entered u hu hvisited hnew := by
    by_cases hmem : u.ident ∈ s'.visited
    · rcases h.entered u hu hmem hnew with ⟨hcs, has⟩
      exact ⟨fun c hc => h'.visited _ (hcs c hc), fun a ha => h'.items.subset (has a ha)⟩
    · exact h'.entered u hu hvisited hmem

theorem Fills.enter (hnews : Joins W s.bag t.axioms news) (ht : t ∈ W.terms)
    (hD : ∀ a ∈ t.axioms, D a)
    (h : Fills W D ⟨(s.bag.insertAll t.axioms).2, s.visited.insert t.ident⟩ s')
    (hcs : ∀ c ∈ t.children, c.ident ∈ s'.visited) (has : ∀ a ∈ news, a.ident ∈ s'.visited) :
    Fills W D s s' where
  tidy := h.tidy
  items := (hnews.items ▸ prefix_append _ _).trans h.items
  visited i hi := h.visited i (Std.TreeSet.mem_insert.mpr (.inr hi))
  added a ha hnew := by
    by_cases hmem : a ∈ (s.bag.insertAll t.axioms).2.items
    · rw [hnews.items] at hmem
      have hjoined := (mem_append.mp hmem).resolve_left hnew
      exact ⟨has a hjoined, hD a (hnews.new a hjoined).1⟩
    · exact h.added a ha hmem
  entered u hu hvisited hnew := by
    by_cases hid : u.ident = t.ident
    · rw [W.identified u hu t ht hid]
      refine ⟨hcs, fun a ha => h.items.subset ?_⟩
      rw [hnews.items]
      exact hnews.all a ha
    · refine h.entered u hu hvisited fun hmem => ?_
      rcases Std.TreeSet.mem_insert.mp hmem with heq | hmem
      · exact hid (Std.LawfulEqCmp.compare_eq_iff_eq.mp heq).symm
      · exact hnew hmem

section Walk

variable (W) (old : List Term) (root : Term)

/-- From every state with the old axioms the walk does all it has to at this node. -/
def Walks (t : Term) : Prop :=
  ∀ s : Filling, Tidy W s.bag → old ⊆ s.bag.items → Reached (· ∉ old) root t →
    Fills W (Depends (· ∉ old) root) s (fill t s) ∧ t.ident ∈ (fill t s).visited

variable {W old root}

theorem fills_fillList (h : ∀ t ∈ ts, Walks W old root t) : ∀ s : Filling, Tidy W s.bag →
    old ⊆ s.bag.items → (∀ t ∈ ts, Reached (· ∉ old) root t) →
    Fills W (Depends (· ∉ old) root) s (fillList ts s) ∧
      ∀ t ∈ ts, t.ident ∈ (fillList ts s).visited := by
  induction ts with
  | nil =>
    intro s hs _ _
    rw [fillList]
    exact ⟨.refl hs, by simp⟩
  | cons t ts ih =>
    intro s hs hold hreached
    rcases ih ((forall_mem_cons.mp h).2) s hs hold
      (forall_mem_cons.mp hreached).2 with ⟨hrest, hdone⟩
    rcases h t mem_cons_self _ hrest.tidy (fun a ha => hrest.items.subset (hold ha))
      (hreached t mem_cons_self) with ⟨hfirst, hself⟩
    rw [fillList]
    refine ⟨hrest.trans hfirst, fun u hu => ?_⟩
    rcases mem_cons.mp hu with rfl | hu
    · exact hself
    · exact hfirst.visited _ (hdone u hu)

theorem walks (hW : ∀ t ∈ W.terms, ∀ a ∈ t.axioms, a ∈ W.terms) (hroot : root ∈ W.terms)
    (t : Term) : Walks W old root t := by
  -- Operands and attached axioms are smaller, whatever leads to them.
  induction hsize : sizeOf t using Nat.strong_induction_on generalizing t with
  | _ size ih =>
    subst hsize
    intro s hs hold hreached
    have ht := hreached.mem hW hroot
    by_cases hvisited : t.ident ∈ s.visited
    · rw [fill_of_visited hvisited]
      exact ⟨.refl hs, hvisited⟩
    rcases hs.exists_joins (hW t ht) with ⟨news, hnews⟩
    have hnew : ∀ a ∈ news, a ∈ t.axioms ∧ a ∉ old := fun a ha =>
      ⟨(hnews.new a ha).1, fun hin => (hnews.new a ha).2 (hold hin)⟩
    have hstart : old ⊆ (s.bag.insertAll t.axioms).2.items := fun a ha => by
      rw [hnews.items]
      exact mem_append_left _ (hold ha)
    rcases fills_fillList (fun c hc => ih _ (sizeOf_lt_of_mem_children hc) c rfl)
      ⟨(s.bag.insertAll t.axioms).2, s.visited.insert t.ident⟩ hnews.tidy hstart
      fun c hc => .operand hreached hc with ⟨hoperands, hcs⟩
    rcases fills_fillList (fun a ha => ih _ (sizeOf_lt_of_mem_axioms (hnew a ha).1) a rfl) _
      hoperands.tidy (fun a ha => hoperands.items.subset (hstart ha))
      fun a ha => .attached hreached (hnew a ha).1 (hnew a ha).2 with ⟨haxioms, has⟩
    have hbeyond := hoperands.trans haxioms
    rw [fill_of_new hvisited, hnews.follow]
    refine ⟨.enter hnews ht (fun a ha => ⟨t, hreached, ha⟩) hbeyond
      (fun c hc => haxioms.visited _ (hcs c hc)) has, ?_⟩
    exact hbeyond.visited _ Std.TreeSet.mem_insert_self

end Walk

section Collecting

variable (hW : ∀ t ∈ W.terms, ∀ a ∈ t.axioms, a ∈ W.terms)
include hW

theorem fills_collect (h : Tidy W bag) (ht : t ∈ W.terms) :
    Fills W (Depends (· ∉ bag.items) t) { bag } (fill t { bag }) ∧
      t.ident ∈ (fill t { bag }).visited :=
  walks hW ht t { bag } h (fun _ ha => ha) .self

theorem Tidy.mem_collect (h : Tidy W bag) (ht : t ∈ W.terms) :
    a ∈ (bag.collect t).items ↔ a ∈ bag.items ∨ Depends (· ∉ bag.items) t a := by
  rcases fills_collect hW h ht with ⟨hfills, hroot⟩
  have hentered := fun u hu hvisited => hfills.entered u hu hvisited Std.TreeSet.not_mem_emptyc
  have hvisited : ∀ u, Reached (· ∉ bag.items) t u → u.ident ∈ (fill t { bag }).visited := by
    intro u hu
    induction hu with
    | self => exact hroot
    | operand hp hc ih => exact (hentered _ (hp.mem hW ht) ih).1 _ hc
    | attached hp ha hnew ih =>
      exact (hfills.added _ ((hentered _ (hp.mem hW ht) ih).2 _ ha) hnew).1
  refine ⟨fun ha => ?_, ?_⟩
  · by_cases hold : a ∈ bag.items
    · exact .inl hold
    · exact .inr (hfills.added a ha hold).2
  · rintro (hold | ⟨u, hu, ha⟩)
    · exact hfills.items.subset hold
    · exact (hentered u (hu.mem hW ht) (hvisited u hu)).2 a ha

theorem Tidy.collect (h : Tidy W bag) (ht : t ∈ W.terms) : Tidy W (bag.collect t) :=
  (fills_collect hW h ht).1.tidy

end Collecting

/-- With an axiom the bag has everything the axiom depends on. -/
def Complete (bag : AxiomBag) : Prop :=
  ∀ b ∈ bag.items, ∀ a, Depends (fun _ => True) b a → a ∈ bag.items

namespace Complete

variable (hW : ∀ t ∈ W.terms, ∀ a ∈ t.axioms, a ∈ W.terms)

include hW in
theorem mem_collect (h : Complete bag) (hbag : Tidy W bag) (ht : t ∈ W.terms)
    (ha : Depends (fun _ => True) t a) : a ∈ (bag.collect t).items := by
  rw [hbag.mem_collect hW ht]
  rcases ha with ⟨u, hu, ha⟩
  rcases hu.cases_of_kind with hu | ⟨b, hb, hu⟩
  · exact .inr ⟨u, hu, ha⟩
  · exact .inl (h b (not_not.mp hb) a ⟨u, hu, ha⟩)

include hW in
theorem collect (h : Complete bag) (hbag : Tidy W bag) (ht : t ∈ W.terms) :
    Complete (bag.collect t) := by
  intro b hb a ha
  rcases (hbag.mem_collect hW ht).mp hb with hb | ⟨u, hu, hb⟩
  · exact (hbag.mem_collect hW ht).mpr (.inl (h b hb a ha))
  · -- What an axiom of the term depends on the term depends on.
    rcases ha with ⟨v, hv, ha⟩
    have hreached : Reached (fun _ => True) t b := .attached (hu.mono fun _ _ => trivial) hb trivial
    exact h.mem_collect hW hbag ht ⟨v, hreached.trans hv, ha⟩

theorem insert (h : Complete bag) (hbag : Tidy W bag) (ht : t ∈ W.terms)
    (hdepends : ∀ a, Depends (fun _ => True) t a → a ∈ bag.items) : Complete (bag.insert t) := by
  by_cases hold : t ∈ bag.items
  · rwa [hbag.insert_of_mem hold]
  rw [hbag.insert_of_notMem ht hold]
  intro b hb a ha
  refine mem_append_left _ ?_
  rcases mem_append.mp hb with hb | hb
  · exact h b hb a ha
  · exact hdepends a (mem_singleton.mp hb ▸ ha)

end Complete

/-- One thing done with a bag. -/
inductive Change where
  | insert (t : Term)
  | collect (t : Term)

/-- The term that is added or gone through. -/
def Change.term : Change → Term
  | .insert t => t
  | .collect t => t

/-- The bag after a change. -/
def Change.apply (bag : AxiomBag) : Change → AxiomBag
  | .insert t => bag.insert t
  | .collect t => bag.collect t

/-- The bag after some changes of an empty one. -/
def ofChanges (changes : List Change) : AxiomBag :=
  changes.foldl Change.apply {}

/-- Axioms are added one at a time only after what they depend on. -/
def Prepared (changes : List Change) : Prop :=
  ∀ before t after, changes = before ++ .insert t :: after →
    ∀ a, Depends (fun _ => True) t a → a ∈ (ofChanges before).items

theorem ofChanges_append_singleton (changes : List Change) (change : Change) :
    ofChanges (changes ++ [change]) = change.apply (ofChanges changes) := by
  rw [ofChanges, foldl_append, foldl_cons, foldl_nil, ← ofChanges]

section Changes

variable (hW : ∀ t ∈ W.terms, ∀ a ∈ t.axioms, a ∈ W.terms)
include hW

theorem Tidy.apply (h : Tidy W bag) (change : Change) (hmem : change.term ∈ W.terms) :
    Tidy W (change.apply bag) ∧ bag.items <+: (change.apply bag).items := by
  cases change with
  | insert t => exact ⟨h.insert hmem, h.prefix_insert hmem⟩
  | collect t => exact ⟨h.collect hW hmem, (fills_collect hW h hmem).1.items⟩

theorem tidy_ofChanges {changes : List Change} (hmem : ∀ c ∈ changes, c.term ∈ W.terms) :
    Tidy W (ofChanges changes) := by
  induction changes using List.reverseRecOn with
  | nil => exact tidy_empty W
  | append_singleton changes change ih =>
    rw [ofChanges_append_singleton]
    exact ((ih fun c hc => hmem c (mem_append_left _ hc)).apply hW change
      (hmem change (by simp))).1

theorem complete_ofChanges {changes : List Change} (hmem : ∀ c ∈ changes, c.term ∈ W.terms)
    (h : Prepared changes) : Complete (ofChanges changes) := by
  induction changes using List.reverseRecOn with
  | nil => exact fun b hb => absurd hb not_mem_nil
  | append_singleton changes change ih =>
    have hmem' : ∀ c ∈ changes, c.term ∈ W.terms := fun c hc => hmem c (mem_append_left _ hc)
    have hcomplete := ih hmem' fun before t after hsplit =>
      h before t (after ++ [change]) (by rw [hsplit, append_assoc, cons_append])
    have hbag := tidy_ofChanges hW hmem'
    have hlast := hmem change (by simp)
    rw [ofChanges_append_singleton]
    cases change with
    | insert t => exact hcomplete.insert hbag hlast (h changes t [] rfl)
    | collect t => exact hcomplete.collect hW hbag hlast

end Changes

end AxiomBag

open AxiomBag

/-- Whatever was done with a bag, each node is in it once and what was in it stays in
    its place. A term that is added comes last, unless it is there. Collecting from
    a term adds exactly what hangs on the nodes that are reached from it without
    passing through an axiom that was there. That is everything the term depends on,
    if each term that was added by itself came after what it depends on; and nothing
    else is in a bag that was empty before. -/
theorem bags_hold_dependencies {W : Stock} (hW : ∀ t ∈ W.terms, ∀ a ∈ t.axioms, a ∈ W.terms)
    (changes : List Change) (hmem : ∀ c ∈ changes, c.term ∈ W.terms) {t : Term}
    (ht : t ∈ W.terms) :
    let bag := ofChanges changes
    (bag.items.map ident).Nodup ∧
    (bag.contains t = true ↔ t ∈ bag.items) ∧
    (t ∈ bag.items → (bag.insert t).items = bag.items) ∧
    (t ∉ bag.items → (bag.insert t).items = bag.items ++ [t]) ∧
    bag.items <+: (bag.collect t).items ∧
    (∀ a, a ∈ (bag.collect t).items ↔ a ∈ bag.items ∨ Depends (· ∉ bag.items) t a) ∧
    (Prepared changes → ∀ a, Depends (fun _ => True) t a → a ∈ (bag.collect t).items) ∧
    ∀ a, a ∈ t.collectAxioms.items ↔ Depends (fun _ => True) t a := by
  intro bag
  have hbag : Tidy W bag := tidy_ofChanges hW hmem
  refine ⟨hbag.nodup, hbag.contains_iff ht, fun hold => by rw [hbag.insert_of_mem hold],
    fun hnew => by rw [hbag.insert_of_notMem ht hnew], (hbag.apply hW (.collect t) ht).2,
    fun a => hbag.mem_collect hW ht, fun hprepared a ha => ?_, fun a => ?_⟩
  · exact (complete_ofChanges hW hmem hprepared).mem_collect hW hbag ht ha
  · rw [collectAxioms, (tidy_empty W).mem_collect hW ht]
    simp

/-- An axiom, one that depends on it, and a formula that depends on the second. -/
def innerAxiom : Term :=
  .node ⟨0, 0⟩ { op := .and, sort := .formula } [] []

@[inherit_doc innerAxiom]
def middleAxiom : Term :=
  .node ⟨0, 1⟩ { op := .not, sort := .formula } [innerAxiom] [innerAxiom]

@[inherit_doc innerAxiom]
def outerFormula : Term :=
  .node ⟨0, 2⟩ { op := .not, sort := .formula } [middleAxiom] [middleAxiom]

/-- The second axiom is added after what was collected from it. So it need not be gone
    into for the formula. -/
theorem bags_hold_dependencies_chained :
    let changes := [Change.collect middleAxiom, Change.insert middleAxiom]
    Prepared changes ∧
    ((ofChanges changes).collect outerFormula).items.map ident = [⟨0, 0⟩, ⟨0, 1⟩] ∧
    Depends (fun _ => True) outerFormula innerAxiom ∧
    innerAxiom ∈ ((ofChanges changes).collect outerFormula).items := by
  let W := Stock.ofList [innerAxiom, middleAxiom, outerFormula] 0
    (by simp [innerAxiom, middleAxiom, outerFormula, children]) (by decide)
  have hW : ∀ t ∈ W.terms, ∀ a ∈ t.axioms, a ∈ W.terms := by
    simp [W, Stock.ofList, innerAxiom, middleAxiom, outerFormula, axioms]
  have hmiddle : middleAxiom ∈ W.terms := mem_cons_of_mem _ mem_cons_self
  have hprepared : Prepared [.collect middleAxiom, .insert middleAxiom] := by
    rintro (_ | ⟨c, _ | ⟨d, before⟩⟩) t after hsplit a ha
    · simp at hsplit
    · cases hsplit
      exact ((bags_hold_dependencies hW [] (by simp) hmiddle).2.2.2.2.2.2.2 a).mpr ha
    · simp at hsplit
  have hdepends : Depends (fun _ => True) outerFormula innerAxiom :=
    ⟨middleAxiom, .operand .self mem_cons_self, mem_cons_self⟩
  have h := bags_hold_dependencies hW [.collect middleAxiom, .insert middleAxiom]
    (by simpa [Change.term] using hmiddle) (t := outerFormula) (by simp [W, Stock.ofList])
  exact ⟨hprepared, by decide +kernel, hdepends, h.2.2.2.2.2.2.1 hprepared _ hdepends⟩

end Vouch
