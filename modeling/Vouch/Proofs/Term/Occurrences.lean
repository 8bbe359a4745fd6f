import Vouch.Proofs.Term.Scan

/-!
# The Order of Free Names

The walk that looks for free names passes over nodes it knows and never reads the
variables of a quantifier. It finds the names in the order of the tree all the same:
what is free in a node that is passed over has been found before.

## Main definitions

* `Term.freeOccurrences`: The free names in a tree from left to right.

## Theorems

* `freeVars_in_order`: Free names are found in the order of their first occurrence.
-/

namespace Vouch

open List

namespace Term

mutual

/-- The names in the tree from left to right, at every place where no quantifier above
    binds them. -/
def freeOccurrences : Term → List String
  | node id h cs as =>
    match (node id h cs as).name? with
    | some n => [n]
    | none => (freeOccurrencesAll cs).filter (· ∉ (node id h cs as).boundNames)

/-- The same for trees from left to right. -/
def freeOccurrencesAll : List Term → List String
  | [] => []
  | t :: ts => freeOccurrences t ++ freeOccurrencesAll ts

end

/-- Variables have no operands, and all operands of a quantifier are variables, except
    the last, which is its body. -/
def Shaped (t : Term) : Prop :=
  ∀ u, Within u t → (u.op = .var → u.children = []) ∧
    (u.op = .all → ∀ v ∈ u.children.dropLast, v.op = .var)

variable {t c : Term} {n : String} {old bound : List String} {W : Stock}

theorem Shaped.operand (h : t.Shaped) (hc : c ∈ t.children) : c.Shaped :=
  fun u hu => h u (.operand hc hu)

theorem freeOccurrencesAll_eq (ts : List Term) :
    freeOccurrencesAll ts = ts.flatMap freeOccurrences := by
  induction ts with
  | nil => rw [freeOccurrencesAll, flatMap_nil]
  | cons t ts ih => rw [freeOccurrencesAll, ih, flatMap_cons]

theorem freeOccurrences_of_some (h : t.name? = some n) : freeOccurrences t = [n] := by
  cases t
  rw [freeOccurrences, h]

theorem freeOccurrences_of_none (h : t.name? = none) :
    freeOccurrences t = (t.children.flatMap freeOccurrences).filter (· ∉ t.boundNames) := by
  cases t
  rw [freeOccurrences, h, freeOccurrencesAll_eq]
  rfl

/-- Of the variables of a quantifier nothing is free. -/
theorem Shaped.freeOccurrences_eq (h : t.Shaped) (hname : t.name? = none) :
    freeOccurrences t = (t.scanned.flatMap freeOccurrences).filter (· ∉ t.boundNames) := by
  rw [freeOccurrences_of_none hname]
  unfold scanned
  split
  · next hop =>
    have hbound : ∀ n, ∀ v ∈ t.children.dropLast, n ∈ freeOccurrences v → n ∈ t.boundNames := by
      intro n v hv hn
      have hleaf := (h v (.operand (dropLast_subset _ hv) .refl)).1 ((h t .refl).2 hop v hv)
      rw [boundNames_of_op_all hop, mem_filterMap]
      cases hname : v.name? with
      | some m => exact ⟨v, hv, by simp_all [freeOccurrences_of_some hname]⟩
      | none => simp [freeOccurrences_of_none hname, hleaf] at hn
    cases hb : t.children.getLast? with
    | none => simp [getLast?_eq_none_iff.mp hb]
    | some b =>
      rw [← dropLast_append_getLast? b hb, flatMap_append, filter_append]
      simpa using hbound
  · rfl

theorem free_of_mem_freeOccurrences (t : Term) : t.Shaped → ∀ n ∈ freeOccurrences t, Free n t := by
  induction t using Term.induction with
  | step t ih =>
    intro hshape n hn
    cases hname : t.name? with
    | some m =>
      rw [freeOccurrences_of_some hname, mem_singleton] at hn
      exact .var (hn ▸ hname)
    | none =>
      rw [hshape.freeOccurrences_eq hname, mem_filter, mem_flatMap] at hn
      rcases hn with ⟨⟨c, hc, hn⟩, hnot⟩
      have hmem := mem_children_of_scanned hc
      exact (free_iff_scanned hname).mpr
        ⟨c, hc, ih c hmem (hshape.operand hmem) n hn, by simpa using hnot⟩

theorem eraseDups_append_of_subset {new : List String} (h : ∀ n ∈ new, n ∈ old) :
    (old ++ new).eraseDups = old.eraseDups := by
  have hnone : new.removeAll old = [] := by simpa [removeAll] using h
  rw [eraseDups_append, hnone, eraseDups_nil, append_nil]

namespace Scan

variable {s : Scan}

theorem names_found (h : s.names = old.eraseDups) (n : String) :
    (s.found n).names = (old ++ [n]).eraseDups := by
  unfold found
  split
  · next hn =>
    rw [eraseDups_append_of_subset, h]
    simpa [h] using hn
  · next hn =>
    have hn : n ∉ old := by simpa [h] using hn
    simp [eraseDups_append, removeAll, hn, h, eraseDups_cons]

/-- The walk over a term adds the names that are free there and not found yet, in the
    order of the tree. -/
def Adds (bound : List String) (t : Term) : Prop :=
  ∀ s old, (bound = [] → Finished Free s t) → s.names = old.eraseDups →
    (scanFree bound t s).names = (old ++ (freeOccurrences t).filter (· ∉ bound)).eraseDups

theorem names_foldl_scanFree : ∀ {ts : List Term} {s : Scan} {old : List String},
    (∀ c ∈ ts, c ∈ W.terms ∧ Adds bound c) → (bound = [] → ∀ c ∈ ts, Finished Free s c) →
    s.names = old.eraseDups → (ts.foldl (fun s c => scanFree bound c s) s).names =
      (old ++ (ts.flatMap freeOccurrences).filter (· ∉ bound)).eraseDups
  | [], _, _, _, _, hs => by simpa using hs
  | c :: ts, s, old, hmem, hfin, hs => by
    rw [foldl_cons, flatMap_cons, filter_append, ← append_assoc]
    rw [forall_mem_cons] at hmem
    have hc : bound = [] → Finished Free s c := fun hb => hfin hb c mem_cons_self
    have hcov := (scanFree_covers c hmem.1.1 bound s hc).1
    refine names_foldl_scanFree hmem.2 (fun hb d hd => ?_) (hmem.1.2 s old hc hs)
    exact hcov.finished (by simpa using hmem.1.1) (hmem.2 d hd).1 (hfin hb d (by simp [hd]))

end Scan

open Scan

theorem adds_scanFree (t : Term) : t ∈ W.terms → t.Shaped → ∀ bound, Adds bound t := by
  induction t using Term.induction with
  | step t ih =>
    intro ht hshape bound s old hfin hs
    have henter : (s.enter bound t).names = old.eraseDups := by rw [names_enter, hs]
    rw [scanFree_eq]
    split
    · next hskip =>
      rw [Bool.and_eq_true, List.isEmpty_iff] at hskip
      have hall := hfin hskip.1 t .refl (Std.TreeSet.contains_iff_mem.mp hskip.2)
      rw [eraseDups_append_of_subset, hs]
      intro n hn
      have hfree := free_of_mem_freeOccurrences t hshape n (mem_filter.mp hn).1
      simpa [hs] using hall n hfree
    split
    · next n hname =>
      rw [freeOccurrences_of_some hname]
      split
      · next hn => simpa [show n ∈ bound by simpa using hn] using henter
      · next hn => simpa [show n ∉ bound by simpa using hn] using names_found henter n
    · next hname =>
      have hmem : ∀ c ∈ t.scanned, c ∈ W.terms ∧ Adds (bound ++ t.boundNames) c := by
        intro c hc
        have hc := mem_children_of_scanned hc
        exact ⟨W.closed t ht c hc, ih c hc (W.closed t ht c hc) (hshape.operand hc) _⟩
      rw [names_foldl_scanFree hmem _ henter, hshape.freeOccurrences_eq hname, filter_filter]
      · simp
      · intro hb c hc
        exact finished_enter ht (mem_children_of_scanned hc) hfin (append_eq_nil_iff.mp hb).1

end Term

open Term

/-- The free names of a term are those read off its tree, each at its first free
    occurrence from left to right. How the term shares its nodes does not matter. -/
theorem freeVars_in_order {W : Stock} {t : Term} (ht : t ∈ W.terms) (hshape : t.Shaped) :
    t.freeVars = t.freeOccurrences.eraseDups := by
  have hfin : Scan.Finished Free {} t := fun u _ hid => absurd hid (by simp)
  simpa [freeVars] using adds_scanFree t ht hshape [] {} [] (fun _ => hfin) rfl

/-- A comparison of two variables, a quantifier over it, and the quantifier and the
    comparison together. -/
def comparedNodes : List Term :=
  let x := .node ⟨0, 0⟩ { op := .var, sort := .int, payload := some (.name "x") } [] []
  let y := .node ⟨0, 1⟩ { op := .var, sort := .int, payload := some (.name "y") } [] []
  let less := .node ⟨0, 2⟩ { op := .lt, sort := .formula } [x, y] []
  let all := .node ⟨0, 3⟩ { op := .all, sort := .formula } [x, less] []
  [.node ⟨0, 4⟩ { op := .and, sort := .formula } [all, less] [], all, less, x, y]

/-- Below the quantifier only one variable of the comparison is free, and so it comes
    first. -/
theorem freeVars_in_order_compared : ∃ t ∈ comparedNodes, t.Shaped ∧
    t.freeOccurrences = ["y", "x", "y"] ∧ t.freeVars = ["y", "x"] := by
  let W := Stock.ofList comparedNodes 0 (by simp [comparedNodes, Term.children]) (by decide)
  have hshape : ∀ t ∈ comparedNodes, t.Shaped := by
    intro t ht u hu
    have hu : u ∈ comparedNodes := hu.mem_terms (W := W) ht
    simp only [comparedNodes, mem_cons, not_mem_nil, or_false] at hu
    rcases hu with rfl | rfl | rfl | rfl | rfl <;> simp [Term.op, Term.head, Term.children]
  have ht : comparedNodes.head (by decide) ∈ comparedNodes := head_mem _
  have hnames : (comparedNodes.head (by decide)).freeOccurrences = ["y", "x", "y"] := by
    decide +kernel
  refine ⟨_, ht, hshape _ ht, hnames, ?_⟩
  rw [freeVars_in_order (W := W) ht (hshape _ ht), hnames]
  decide +kernel

end Vouch
