import Mathlib.Data.List.Basic
import Vouch.Proofs.Logic.Interp

/-!
# Meaning of Terms

Identities and attached axioms play no part in the value of a term, so whatever sharing
does to a term, its meaning cannot depend on how the term was built. Names are looked at
apart from values.

## Main definitions

* `Term.eval`: The value of a term under an assignment.
* `Term.Free`: A name has a free occurrence.
* `Term.Mentions`: A name has an occurrence, bound or free.

## Theorems

* `Term.induction`: Induction over operands.
* `Term.free_all`: What is free in a quantifier.
-/

namespace Vouch

open List

namespace Term

theorem induction {P : Term → Prop} (step : ∀ t : Term, (∀ c ∈ t.children, P c) → P t) :
    ∀ t, P t
  | node _ _ cs _ => step _ fun c (_ : c ∈ cs) => induction step c

/-- The names of some variables, with the sorts they range over. -/
def bindersOf (vs : List Term) : List (String × TermSort) :=
  vs.filterMap fun v => v.name?.map (·, v.sort)

/-- The names a quantifier binds, with their sorts. -/
def binders (t : Term) : List (String × TermSort) :=
  bindersOf t.children.dropLast

mutual

/-- The value of a term under an assignment. -/
noncomputable def eval (I : Interp) : Term → Assignment I.Value → I.Value
  | node id h cs as, ρ =>
    match (node id h cs as).name? with
    | some n => ρ n
    | none =>
      if h.op = .all then
        I.truth (I.ForAll (node id h cs as).binders (fun ρ => I.Holds (evalLast I cs ρ)) ρ)
      else I.apply h (evalAll I cs ρ)

/-- The values of a list of operands. -/
noncomputable def evalAll (I : Interp) : List Term → Assignment I.Value → List I.Value
  | [], _ => []
  | t :: ts, ρ => eval I t ρ :: evalAll I ts ρ

/-- The value of the last of a list of operands, the body of a quantifier. -/
noncomputable def evalLast (I : Interp) : List Term → Assignment I.Value → I.Value
  | [], _ => I.bool true
  | t :: ts, ρ => if ts.isEmpty then eval I t ρ else evalLast I ts ρ

end

variable {n : String} {t : Term} {N : String → Prop}

theorem op_of_name? (h : t.name? = some n) : t.op = .var := by
  unfold name? at h
  split at h
  · assumption
  · exact absurd h (by simp)

theorem name?_of_op_ne (h : t.op ≠ .var) : t.name? = none := by
  cases hn : t.name? with
  | none => rfl
  | some n => exact absurd (op_of_name? hn) h

theorem name?_of_op_all (h : t.op = .all) : t.name? = none :=
  name?_of_op_ne (by simp [h])

theorem name?_eq_of_head {u : Term} (h : t.head = u.head) : t.name? = u.name? := by
  unfold name? op payload
  rw [h]

/-- The name has a free occurrence. -/
inductive Free (n : String) : Term → Prop where
  | var {t : Term} : t.name? = some n → Free n t
  | operand {t c : Term} : t.name? = none → t.op ≠ .all → c ∈ t.children → Free n c → Free n t
  | body {t b : Term} : t.op = .all → t.children.getLast? = some b → n ∉ t.boundNames →
      Free n b → Free n t

/-- The name has an occurrence, bound or free. -/
inductive Mentions (n : String) : Term → Prop where
  | var {t : Term} : t.name? = some n → Mentions n t
  | operand {t c : Term} : c ∈ t.children → Mentions n c → Mentions n t

theorem Free.mentions (h : Free n t) : Mentions n t := by
  induction h with
  | var hname => exact .var hname
  | operand _ _ hc _ ih => exact .operand hc ih
  | body _ hb _ _ ih => exact .operand (mem_of_getLast? hb) ih

theorem free_var {m : String} (ht : t.name? = some m) : Free n t ↔ n = m := by
  constructor
  · intro h
    cases h with
    | var h => simpa [ht] using h.symm
    | operand h => simp [ht] at h
    | body h => simp [name?_of_op_all h] at ht
  · intro h
    exact .var (h ▸ ht)

theorem free_operand (hname : t.name? = none) (hop : t.op ≠ .all) :
    Free n t ↔ ∃ c ∈ t.children, Free n c := by
  constructor
  · intro h
    cases h with
    | var h => simp [hname] at h
    | operand _ _ hc hn => exact ⟨_, hc, hn⟩
    | body h => exact absurd h hop
  · rintro ⟨c, hc, hn⟩
    exact .operand hname hop hc hn

theorem free_all {b : Term} (hop : t.op = .all) (hb : t.children.getLast? = some b) :
    Free n t ↔ n ∉ t.boundNames ∧ Free n b := by
  constructor
  · intro h
    cases h with
    | var h => simp [name?_of_op_all hop] at h
    | operand _ h => exact absurd hop h
    | body _ hb' hn hfree =>
      rw [hb, Option.some.injEq] at hb'
      exact ⟨hn, hb' ▸ hfree⟩
  · rintro ⟨hn, hfree⟩
    exact .body hop hb hn hfree

theorem bindersOf_cons_none {v : Term} (hv : v.name? = none) (vs : List Term) :
    bindersOf (v :: vs) = bindersOf vs :=
  filterMap_cons_none (by rw [hv]; rfl)

theorem bindersOf_cons_some {v : Term} (hv : v.name? = some n) (vs : List Term) :
    bindersOf (v :: vs) = (n, v.sort) :: bindersOf vs :=
  filterMap_cons_some (by rw [hv]; rfl)

theorem map_fst_bindersOf (vs : List Term) : (bindersOf vs).map (·.1) = vs.filterMap name? := by
  unfold bindersOf
  rw [map_filterMap]
  refine filterMap_congr fun v _ => ?_
  cases v.name? <;> rfl

theorem boundNames_of_op_all (h : t.op = .all) :
    t.boundNames = t.children.dropLast.filterMap name? := by
  unfold boundNames
  rw [h]

theorem boundNames_eq (h : t.op = .all) : t.boundNames = t.binders.map (·.1) := by
  rw [boundNames_of_op_all h, binders, map_fst_bindersOf]

theorem boundNames_of_op_ne (h : t.op ≠ .all) : t.boundNames = [] := by
  unfold boundNames
  split
  · contradiction
  · rfl

/-- The free names of the term are as described. -/
def FreeIn (N : String → Prop) (t : Term) : Prop :=
  ∀ n, Free n t → N n

theorem FreeIn.of_var {m : String} (hname : t.name? = some m) (h : N m) : FreeIn N t := by
  intro n hn
  rw [(free_var hname).mp hn]
  exact h

theorem FreeIn.of_head {hd : Head} (hhead : t.head = hd) (hvar : hd.op ≠ .var ∨ hd.payload = none)
    (hall : hd.op ≠ .all) (h : ∀ c ∈ t.children, FreeIn N c) : FreeIn N t := by
  have hname : t.name? = none := by
    unfold name? op payload
    rw [hhead]
    split
    · next hop hpayload => simp [hop, hpayload] at hvar
    · rfl
  intro n hn
  rcases (free_operand hname (by rwa [op, hhead])).mp hn with ⟨c, hc, hfree⟩
  exact h c hc n hfree

theorem FreeIn.of_all {b : Term} {vs : List Term} (hop : t.op = .all)
    (hcs : t.children = vs ++ [b]) (h : ∀ n, Free n b → n ∉ vs.filterMap name? → N n) :
    FreeIn N t := by
  intro n hn
  rcases (free_all hop (by rw [hcs, getLast?_concat])).mp hn with ⟨hnot, hfree⟩
  rw [boundNames_of_op_all hop, hcs, dropLast_concat] at hnot
  exact h n hfree hnot

end Term

end Vouch
