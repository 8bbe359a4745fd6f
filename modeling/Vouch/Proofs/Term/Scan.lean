import Vouch.Proofs.Term.Meaning
import Vouch.Proofs.Term.Stock
import Vouch.Term.FreeVars

/-!
# Finding the Names of a Term

A node is remembered when it is entered, before its operands are looked at, so while a
walk is under way some remembered nodes have names not found yet. These are the nodes
above the current one, and no term stands above itself.

## Main definitions

* `Term.Within`: A term occurs in another.
* `Term.Scan.Finished`: The names of remembered nodes are recorded.

## Theorems

* `Term.mem_freeVars`: The walk finds the free names.
* `Term.mem_allNames_of_mentions`: And the other one all names.
-/

namespace Vouch

open List

namespace Term

/-- The term occurs in another, or is the other. -/
inductive Within (u : Term) : Term → Prop where
  | refl : Within u u
  | operand {t c : Term} : c ∈ t.children → Within u c → Within u t

variable {c t u : Term} {W : Stock} {n : String} {bound : List String}

theorem sizeOf_lt_of_mem_children (h : c ∈ t.children) : sizeOf c < sizeOf t := by
  obtain ⟨id, hd, cs, as⟩ := t
  have hlt : sizeOf c < sizeOf cs := sizeOf_lt_of_mem h
  simp only [node.sizeOf_spec]
  omega

theorem Within.sizeOf_le (h : Within u t) : sizeOf u ≤ sizeOf t := by
  induction h with
  | refl => exact le_rfl
  | operand hc _ ih => exact ih.trans (sizeOf_lt_of_mem_children hc).le

theorem Within.ne_of_mem_children (h : Within u c) (hc : c ∈ t.children) : u ≠ t := by
  intro hut
  have hle := h.sizeOf_le
  have hlt := sizeOf_lt_of_mem_children hc
  rw [hut] at hle
  omega

theorem Within.mem_terms (h : Within u t) (ht : t ∈ W.terms) : u ∈ W.terms := by
  induction h with
  | refl => exact ht
  | operand hc _ ih => exact ih (W.closed _ ht _ hc)

namespace Scan

variable {s s' : Scan} {ts : List Term} {t : Term}

@[simp]
theorem mem_found {m n : String} : m ∈ (s.found n).names ↔ m = n ∨ m ∈ s.names := by
  unfold found
  split
  · next h =>
    have hn : n ∈ s.names := by simpa using h
    constructor
    · exact .inr
    · rintro (rfl | hm)
      · exact hn
      · exact hm
  · simp [or_comm]

@[simp]
theorem visited_found (s : Scan) (n : String) : (s.found n).visited = s.visited := by
  unfold found
  split <;> rfl

@[simp]
theorem mem_visited_mark {i id : NodeId} : i ∈ (s.mark id).visited ↔ i = id ∨ i ∈ s.visited := by
  rw [mark, Std.TreeSet.mem_insert, Std.compare_eq_iff_eq, eq_comm]

/-- The nodes remembered within a term have all their names recorded. Which
    names a term has is a parameter. -/
def Finished (has : String → Term → Prop) (s : Scan) (t : Term) : Prop :=
  ∀ u, Within u t → u.ident ∈ s.visited → ∀ n, has n u → n ∈ s.names

/-- Nothing recorded is lost, and what was remembered since occurs in one of
    the terms and is finished. -/
structure Covers (has : String → Term → Prop) (ts : List Term) (s s' : Scan) : Prop where
  names : ∀ n ∈ s.names, n ∈ s'.names
  visited : ∀ id ∈ s'.visited, id ∈ s.visited ∨
    ∃ t ∈ ts, ∃ u, Within u t ∧ u.ident = id ∧ ∀ n, has n u → n ∈ s'.names

variable {has : String → Term → Prop} {W : Stock}

theorem Covers.refl (ts : List Term) (s : Scan) : Covers has ts s s :=
  ⟨fun _ h => h, fun _ h => .inl h⟩

theorem Covers.subset {us : List Term} (h : Covers has ts s s') (hsub : ts ⊆ us) :
    Covers has us s s' := by
  refine ⟨h.names, fun id hid => ?_⟩
  rcases h.visited id hid with hid | ⟨t, ht, hu⟩
  · exact .inl hid
  · exact .inr ⟨t, hsub ht, hu⟩

theorem Covers.trans {s'' : Scan} (h : Covers has ts s s') (h' : Covers has ts s' s'') :
    Covers has ts s s'' := by
  refine ⟨fun n hn => h'.names n (h.names n hn), fun id hid => ?_⟩
  rcases h'.visited id hid with hid | hnew
  · rcases h.visited id hid with hid | ⟨t, ht, u, hu, huid, hnames⟩
    · exact .inl hid
    · exact .inr ⟨t, ht, u, hu, huid, fun n hn => h'.names n (hnames n hn)⟩
  · exact .inr hnew

theorem covers_found (ts : List Term) (s : Scan) (n : String) : Covers has ts s (s.found n) :=
  ⟨fun _ hm => mem_found.mpr (.inr hm), fun _ hid => .inl (by simpa using hid)⟩

theorem Covers.finished (h : Covers has ts s s') (hts : ∀ t ∈ ts, t ∈ W.terms) (ht : t ∈ W.terms)
    (hfin : Finished has s t) : Finished has s' t := by
  intro u hu hid n hn
  rcases h.visited _ hid with hid | ⟨v, hv, w, hw, hwid, hnames⟩
  · exact h.names n (hfin u hu hid n hn)
  · have huw : u = w :=
      W.identified u (hu.mem_terms ht) w (hw.mem_terms (hts v hv)) hwid.symm
    exact hnames n (huw ▸ hn)

theorem Finished.mark {c : Term} (h : Finished has s t) (ht : t ∈ W.terms) (hc : c ∈ t.children) :
    Finished has (s.mark t.ident) c := by
  intro u hu hid n hn
  rcases mem_visited_mark.mp hid with hid | hid
  · have hut := W.identified u ((Within.operand hc hu).mem_terms ht) t ht hid
    exact absurd hut (hu.ne_of_mem_children hc)
  · exact h u (.operand hc hu) hid n hn

theorem Covers.of_operands (h : Covers has t.children s s') : Covers has [t] s s' := by
  refine ⟨h.names, fun id hid => ?_⟩
  rcases h.visited id hid with hid | ⟨c, hc, u, hu, huid, hn⟩
  · exact .inl hid
  · exact .inr ⟨t, by simp, u, .operand hc hu, huid, hn⟩

theorem Covers.node (h : Covers has t.children (s.mark t.ident) s')
    (hnames : ∀ n, has n t → n ∈ s'.names) : Covers has [t] s s' := by
  refine ⟨fun n hn => h.names n hn, fun id hid => ?_⟩
  rcases h.of_operands.visited id hid with hid | hnew
  · rcases mem_visited_mark.mp hid with rfl | hid
    · exact .inr ⟨t, by simp, t, .refl, rfl, hnames⟩
    · exact .inl hid
  · exact .inr hnew

/-- A walk over several terms finds the names wanted of each of them. -/
theorem covers_foldl (step : Term → Scan → Scan) (guard : Prop) (wanted : String → Prop) :
    ∀ {ts : List Term}, (∀ t ∈ ts, t ∈ W.terms) →
      (∀ t ∈ ts, ∀ s, (guard → Finished has s t) → Covers has [t] s (step t s) ∧
        ∀ n, n ∈ (step t s).names ↔ n ∈ s.names ∨ (has n t ∧ wanted n)) →
      ∀ s, (guard → ∀ t ∈ ts, Finished has s t) →
        Covers has ts s (ts.foldl (fun s t => step t s) s) ∧
          ∀ n, n ∈ (ts.foldl (fun s t => step t s) s).names ↔
            n ∈ s.names ∨ ∃ t ∈ ts, has n t ∧ wanted n
  | [], _, _, s, _ => ⟨Covers.refl _ s, by simp⟩
  | t :: ts, hmem, hstep, s, hfin => by
    have hone : ∀ u ∈ [t], u ∈ W.terms := fun u hu => hmem u (by simp_all)
    rcases hstep t (by simp) s (fun hg => hfin hg t (by simp)) with ⟨hcov, hnames⟩
    have hrest : guard → ∀ u ∈ ts, Finished has (step t s) u := fun hg u hu =>
      hcov.finished hone (hmem u (by simp [hu])) (hfin hg u (by simp [hu]))
    rcases covers_foldl step guard wanted (fun u hu => hmem u (by simp [hu]))
      (fun u hu => hstep u (by simp [hu])) (step t s) hrest with ⟨hcovs, hnamess⟩
    refine ⟨(hcov.subset (by simp)).trans (hcovs.subset (by simp)), fun n => ?_⟩
    rw [foldl_cons, hnamess, hnames, or_assoc, exists_mem_cons_iff]

end Scan

open Scan

theorem scanNamesList_eq_foldl (ts : List Term) (s : Scan) :
    scanNamesList ts s = ts.foldl (fun s t => scanNames t s) s := by
  induction ts generalizing s with
  | nil => rw [scanNamesList, foldl_nil]
  | cons t ts ih => rw [scanNamesList, ih, foldl_cons]

theorem scanNames_eq (t : Term) (s : Scan) :
    scanNames t s = if s.visited.contains t.ident then s
      else t.children.foldl (fun s t => scanNames t s)
        (match t.name? with
          | some n => (s.mark t.ident).found n
          | none => s.mark t.ident) := by
  obtain ⟨id, hd, cs, as⟩ := t
  rw [scanNames, ← scanNamesList_eq_foldl]
  rfl

theorem mentions_iff : Mentions n t ↔ t.name? = some n ∨ ∃ c ∈ t.children, Mentions n c := by
  constructor
  · rintro (h | ⟨hc, h⟩)
    · exact .inl h
    · exact .inr ⟨_, hc, h⟩
  · rintro (h | ⟨c, hc, h⟩)
    · exact .var h
    · exact .operand hc h

theorem scanNames_covers (t : Term) : t ∈ W.terms → ∀ s, Finished Mentions s t →
    Covers Mentions [t] s (scanNames t s) ∧
      ∀ n, n ∈ (scanNames t s).names ↔ n ∈ s.names ∨ Mentions n t := by
  induction t using Term.induction with
  | step t ih =>
    intro ht s hfin
    rw [scanNames_eq]
    split
    · next hvis =>
      have hall := hfin t .refl (Std.TreeSet.contains_iff_mem.mp hvis)
      exact ⟨Covers.refl _ s, fun n => (or_iff_left_of_imp (hall n)).symm⟩
    -- The node is entered and its own name recorded before the operands.
    generalize hs₁ : (match t.name? with
      | some n => (s.mark t.ident).found n
      | none => s.mark t.ident) = s₁
    have hown : ∀ n, n ∈ s₁.names ↔ n ∈ s.names ∨ t.name? = some n := by
      intro n
      rw [← hs₁]
      cases t.name? <;> simp [mark, or_comm, eq_comm]
    have hmarked : Covers Mentions t.children (s.mark t.ident) s₁ := by
      rw [← hs₁]
      split
      · exact covers_found _ _ _
      · exact Covers.refl _ _
    have hfin₁ : ∀ c ∈ t.children, Finished Mentions s₁ c := fun c hc =>
      hmarked.finished (W.closed t ht) (W.closed t ht c hc) (hfin.mark ht hc)
    have hoperand : ∀ c ∈ t.children, ∀ s', (True → Finished Mentions s' c) →
        Covers Mentions [c] s' (scanNames c s') ∧
          ∀ n, n ∈ (scanNames c s').names ↔ n ∈ s'.names ∨ (Mentions n c ∧ True) := by
      intro c hc s' hf
      simpa using ih c hc (W.closed t ht c hc) s' (hf trivial)
    rcases covers_foldl scanNames True (fun _ => True) (W.closed t ht) hoperand s₁
      (fun _ => hfin₁) with ⟨hcov, hnames⟩
    have hall : ∀ n, n ∈ (t.children.foldl (fun s t => scanNames t s) s₁).names ↔
        n ∈ s.names ∨ Mentions n t := by
      intro n
      rw [hnames, hown, or_assoc, mentions_iff]
      simp
    exact ⟨(hmarked.trans hcov).node fun n hn => (hall n).mpr (.inr hn), hall⟩

theorem mem_allNames_of_mentions (ht : t ∈ W.terms) (h : Mentions n t) : n ∈ t.allNames := by
  have hfin : Finished Mentions {} t := fun u _ hid => absurd hid (by simp)
  exact ((scanNames_covers t ht {} hfin).2 n).mpr (.inr h)

/-- The operands in which free names are looked for. -/
def scanned (t : Term) : List Term :=
  if t.op = .all then t.children.getLast?.toList else t.children

theorem mem_children_of_scanned (h : c ∈ t.scanned) : c ∈ t.children := by
  unfold scanned at h
  split at h
  · exact mem_of_getLast? (by simpa using h)
  · exact h

theorem free_iff_scanned (hname : t.name? = none) :
    Free n t ↔ ∃ c ∈ t.scanned, Free n c ∧ n ∉ t.boundNames := by
  unfold scanned
  split
  · next hop =>
    constructor
    · intro h
      cases h with
      | var h => simp [hname] at h
      | operand _ h => exact absurd hop h
      | body _ hb hn h => exact ⟨_, by simpa using hb, h, hn⟩
    · rintro ⟨b, hb, h, hn⟩
      exact .body hop (by simpa using hb) hn h
  · next hop => simp [free_operand hname hop, boundNames_of_op_ne hop]

theorem scanFreeList_eq_foldl (bound : List String) (ts : List Term) (s : Scan) :
    scanFreeList bound ts s = ts.foldl (fun s t => scanFree bound t s) s := by
  induction ts generalizing s with
  | nil => rw [scanFreeList, foldl_nil]
  | cons t ts ih => rw [scanFreeList, ih, foldl_cons]

theorem scanFreeLast_eq_foldl (bound : List String) (s : Scan) : ∀ ts : List Term,
    scanFreeLast bound ts s = ts.getLast?.toList.foldl (fun s t => scanFree bound t s) s
  | [] => by rw [scanFreeLast]; rfl
  | [t] => by rw [scanFreeLast]; rfl
  | _ :: t :: ts => by
    rw [scanFreeLast, getLast?_cons_cons]
    exact scanFreeLast_eq_foldl bound s (t :: ts)

theorem foldl_scanFree_scanned (bound : List String) (t : Term) (s : Scan) :
    t.scanned.foldl (fun s c => scanFree (bound ++ t.boundNames) c s) s =
      if t.op = .all then scanFreeLast (bound ++ t.boundNames) t.children s
      else scanFreeList bound t.children s := by
  by_cases hop : t.op = .all
  · rw [if_pos hop, scanned, if_pos hop, scanFreeLast_eq_foldl]
  · rw [if_neg hop, scanned, if_neg hop, boundNames_of_op_ne hop, append_nil,
      scanFreeList_eq_foldl]

/-- The node is entered, unless names are bound around it. -/
def Scan.enter (bound : List String) (t : Term) (s : Scan) : Scan :=
  if bound.isEmpty then s.mark t.ident else s

@[simp]
theorem Scan.names_enter (bound : List String) (t : Term) (s : Scan) :
    (s.enter bound t).names = s.names := by
  unfold enter
  split <;> rfl

theorem scanFree_eq (bound : List String) (t : Term) (s : Scan) :
    scanFree bound t s = if bound.isEmpty && s.visited.contains t.ident then s
      else match t.name? with
        | some n => if bound.contains n then s.enter bound t else (s.enter bound t).found n
        | none => t.scanned.foldl (fun s c => scanFree (bound ++ t.boundNames) c s)
            (s.enter bound t) := by
  obtain ⟨id, hd, cs, as⟩ := t
  rw [scanFree, foldl_scanFree_scanned]
  rfl

theorem Scan.finished_enter {s : Scan} (ht : t ∈ W.terms) (hc : c ∈ t.children)
    (hfin : bound = [] → Finished Free s t) (hbound : bound = []) :
    Finished Free (s.enter bound t) c := by
  subst hbound
  exact (hfin rfl).mark ht hc

theorem Scan.covers_enter {s s' : Scan} (h : Covers Free t.children (s.enter bound t) s')
    (hnames : ∀ n, n ∈ s'.names ↔ n ∈ s.names ∨ (Free n t ∧ n ∉ bound)) :
    Covers Free [t] s s' := by
  cases bound with
  | nil => exact h.node fun n hn => (hnames n).mpr (.inr ⟨hn, by simp⟩)
  | cons m ms => exact h.of_operands

theorem scanFree_covers (t : Term) : t ∈ W.terms → ∀ bound s,
    (bound = [] → Finished Free s t) → Covers Free [t] s (scanFree bound t s) ∧
      ∀ n, n ∈ (scanFree bound t s).names ↔ n ∈ s.names ∨ (Free n t ∧ n ∉ bound) := by
  induction t using Term.induction with
  | step t ih =>
    intro ht bound s hfin
    rw [scanFree_eq]
    split
    · next hskip =>
      rw [Bool.and_eq_true, List.isEmpty_iff] at hskip
      have hall := hfin hskip.1 t .refl (Std.TreeSet.contains_iff_mem.mp hskip.2)
      exact ⟨Covers.refl _ s, fun n => (or_iff_left_of_imp fun hn => hall n hn.1).symm⟩
    -- It is enough to cover the operands and to find the free names.
    suffices h : ∀ s', Covers Free t.children (s.enter bound t) s' →
        (∀ n, n ∈ s'.names ↔ n ∈ s.names ∨ (Free n t ∧ n ∉ bound)) →
        Covers Free [t] s s' ∧ ∀ n, n ∈ s'.names ↔ n ∈ s.names ∨ (Free n t ∧ n ∉ bound) by
      split
      · next m hname =>
        split
        · next hin =>
          have hm : m ∈ bound := by simpa using hin
          refine h _ (Covers.refl _ _) fun n => ?_
          rw [names_enter, free_var hname, or_iff_left]
          rintro ⟨rfl, hnot⟩
          exact hnot hm
        · next hnot =>
          have hm : m ∉ bound := by simpa using hnot
          refine h _ (covers_found _ _ _) fun n => ?_
          rw [mem_found, names_enter, free_var hname, or_comm, and_iff_left_of_imp]
          rintro rfl
          exact hm
      · next hname =>
        have hmem : ∀ c ∈ t.scanned, c ∈ t.children := fun c => mem_children_of_scanned
        rcases covers_foldl (scanFree (bound ++ t.boundNames)) (bound ++ t.boundNames = [])
          (· ∉ bound ++ t.boundNames) (fun c hc => W.closed t ht c (hmem c hc))
          (fun c hc s' hf => ih c (hmem c hc) (W.closed t ht c (hmem c hc)) _ s' hf)
          (s.enter bound t) (fun hb c hc => finished_enter ht (hmem c hc) hfin
            (append_eq_nil_iff.mp hb).1) with ⟨hcov, hnames⟩
        refine h _ (hcov.subset hmem) fun n => ?_
        rw [hnames, names_enter, free_iff_scanned hname]
        simp only [mem_append, not_or]
        tauto
    exact fun s' hcov hnames => ⟨covers_enter hcov hnames, hnames⟩

/-- The walk passes over a node only if it has found what is free in it. -/
theorem mem_freeVars (ht : t ∈ W.terms) : n ∈ t.freeVars ↔ Free n t := by
  have hfin : Finished Free {} t := fun u _ hid => absurd hid (by simp)
  simpa [freeVars] using (scanFree_covers t ht [] {} fun _ => hfin).2 n

end Term

end Vouch
