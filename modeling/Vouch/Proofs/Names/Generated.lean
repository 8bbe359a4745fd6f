import Mathlib.Data.List.Infix
import Mathlib.Data.List.Perm.Subperm
import Vouch.Condition.Encode

/-!
# Generated Names

A new version of a variable is the variable with a number behind `$$`, a binder that
would capture is renamed with a number behind `$$q`, and the value of a variable is its
name behind `term$$`.

## Main definitions

* `PlainName`: A name without `$$`.
* `versionName`: The version of a variable with a number.
* `renamedBinder`: The name that a renamed binder gets.

## Theorems

* `dollars_inj`: A generated name can be taken apart.
* `plainName_ne_versionName`: Plain names are not generated.
* `eq_term_of_versionName_eq_valueName`: The coincidence happens to few variables only.
-/

namespace Vouch

open List

/-- The name does not contain `$$`. -/
def PlainName (x : String) : Prop :=
  ¬ ['$', '$'] <:+: x.toList

instance (x : String) : Decidable (PlainName x) :=
  inferInstanceAs (Decidable (¬ _))

/-- The version of a variable with a number. -/
def versionName (x : String) (k : Nat) : String :=
  x ++ "$$" ++ toString k

/-- The numbered variant of a name that a renamed binder gets. -/
def renamedBinder (n : String) (k : Nat) : String :=
  n ++ "$$q" ++ toString k

theorem not_mem_toDigits {c : Char} (hc : c.isDigit = false) (k : Nat) : c ∉ Nat.toDigits 10 k := by
  intro h
  have hd := Nat.isDigit_of_mem_toDigits (by decide) (by decide) h
  rw [hc] at hd
  exact absurd hd (by decide)

theorem not_mem_toString {c : Char} (hc : c.isDigit = false) (k : Nat) :
    c ∉ (toString k).toList := by
  rw [Nat.toString_eq_repr, Nat.toList_repr]
  exact not_mem_toDigits hc k

variable {j k : Nat} {x y : String}

theorem toString_nat_inj (h : toString j = toString k) : j = k := by
  have hl : Nat.toDigits 10 j = Nat.toDigits 10 k := by
    have := congrArg String.toList h
    simpa only [Nat.toString_eq_repr, Nat.toList_repr] using this
  have hn := congrArg (fun ds => Nat.ofDigitChars 10 ds 0) hl
  simpa only [Nat.ofDigitChars_ten_toDigits, Nat.ofDigitChars_toDigits] using hn

theorem eq_nil_of_dollar {a u v : List Char} (hu : '$' ∉ u) (h : '$' :: u = a ++ '$' :: v) :
    a = [] := by
  cases a with
  | nil => rfl
  | cons c a =>
    rw [cons_append, List.cons.injEq] at h
    exact absurd (h.2 ▸ mem_append_right _ (mem_cons_self ..)) hu

theorem dollar_list_inj {a b u v : List Char} (hu : '$' ∉ u) (hv : '$' ∉ v)
    (h : a ++ '$' :: u = b ++ '$' :: v) : a = b ∧ u = v := by
  have hab : a = b := by
    rcases append_eq_append_iff.mp h with ⟨a', hb, hrest⟩ | ⟨b', ha, hrest⟩
    · rw [hb, eq_nil_of_dollar hu hrest, append_nil]
    · rw [ha, eq_nil_of_dollar hv hrest, append_nil]
  rw [hab] at h
  exact ⟨hab, (List.cons.inj (append_cancel_left h)).2⟩

/-- The last `$$` is the one that was put there. -/
theorem dollars_inj {u v : String} (hu : '$' ∉ u.toList) (hv : '$' ∉ v.toList)
    (h : x ++ "$$" ++ u = y ++ "$$" ++ v) : x = y ∧ u = v := by
  have hl : x.toList ++ ['$'] ++ '$' :: u.toList = y.toList ++ ['$'] ++ '$' :: v.toList := by
    simpa using congrArg String.toList h
  rcases dollar_list_inj hu hv hl with ⟨hxy, huv⟩
  exact ⟨String.toList_inj.mp (append_cancel_right hxy), String.toList_inj.mp huv⟩

theorem dollar_not_mem_toString (k : Nat) : '$' ∉ (toString k).toList :=
  not_mem_toString (by decide) k

theorem dollar_not_mem_cons (k : Nat) : '$' ∉ 'q' :: (toString k).toList := by
  rw [mem_cons, not_or]
  exact ⟨by decide, dollar_not_mem_toString k⟩

theorem dollar_not_mem_mark (k : Nat) : '$' ∉ ("q" ++ toString k).toList := by
  simpa using dollar_not_mem_cons k

theorem renamedBinder_eq (n : String) (k : Nat) :
    renamedBinder n k = n ++ "$$" ++ ("q" ++ toString k) := by
  have hq : "$$q" = "$$" ++ "q" := by decide
  rw [renamedBinder, hq, ← String.append_assoc, String.append_assoc]

theorem versionName_inj (h : versionName x j = versionName y k) : x = y ∧ j = k := by
  rcases dollars_inj (dollar_not_mem_toString j) (dollar_not_mem_toString k) h with ⟨hxy, hjk⟩
  exact ⟨hxy, toString_nat_inj hjk⟩

theorem renamedBinder_inj {m n : String} (h : renamedBinder m j = renamedBinder n k) :
    m = n ∧ j = k := by
  rw [renamedBinder_eq, renamedBinder_eq] at h
  rcases dollars_inj (dollar_not_mem_mark j) (dollar_not_mem_mark k) h with ⟨hmn, hjk⟩
  exact ⟨hmn, toString_nat_inj ((String.append_right_inj _).mp hjk)⟩

theorem versionName_ne_renamedBinder (x n : String) (j k : Nat) :
    versionName x j ≠ renamedBinder n k := by
  intro h
  rw [renamedBinder_eq] at h
  have hq := (dollars_inj (dollar_not_mem_toString j) (dollar_not_mem_mark k) h).2
  refine not_mem_toString (c := 'q') (by decide) j ?_
  rw [hq, String.toList_append]
  exact mem_append_left _ (by decide)

theorem not_plainName_append (x u : String) : ¬ PlainName (x ++ "$$" ++ u) := by
  intro h
  refine h ⟨x.toList, u.toList, ?_⟩
  simp

theorem plainName_ne_versionName (hx : PlainName x) : x ≠ versionName y k := by
  intro h
  rw [h] at hx
  exact not_plainName_append _ _ hx

theorem valueName_eq (x : String) : valueName x = "term" ++ "$$" ++ x := rfl

theorem plainName_ne_valueName (hx : PlainName x) : x ≠ valueName y := by
  intro h
  rw [h, valueName_eq] at hx
  exact not_plainName_append _ _ hx

theorem plainName_ne_renamedBinder {n : String} (hx : PlainName x) : x ≠ renamedBinder n k := by
  intro h
  rw [h, renamedBinder_eq] at hx
  exact not_plainName_append _ _ hx

theorem valueName_inj (h : valueName x = valueName y) : x = y :=
  (String.append_right_inj _).mp h

theorem valueName_versionName (x : String) (k : Nat) :
    valueName (versionName x k) = versionName (valueName x) k := by
  simp only [valueName, versionName, String.append_assoc]

theorem valueName_renamedBinder (x : String) (k : Nat) :
    valueName (renamedBinder x k) = renamedBinder (valueName x) k := by
  simp only [valueName, renamedBinder, String.append_assoc]

theorem versionName_ne_valueName_versionName (hx : PlainName x) :
    versionName x j ≠ valueName (versionName y k) := by
  intro h
  rw [valueName_versionName] at h
  exact plainName_ne_valueName hx (versionName_inj h).1

theorem eq_term_of_append_eq_valueName {u : String} (hx : PlainName x)
    (h : x ++ "$$" ++ u = valueName y) : x = "term" ∨ x = "term$" := by
  have hl : x.toList ++ '$' :: '$' :: u.toList = "term".toList ++ '$' :: '$' :: y.toList := by
    have := congrArg String.toList h
    simpa [valueName_eq] using this
  rcases append_eq_append_iff.mp hl with ⟨a, hterm, hrest⟩ | ⟨a, hterm, hrest⟩
  · -- A shorter name would have a dollar sign where `term` goes on.
    cases a with
    | nil => exact .inl (String.toList_inj.mp (by simpa using hterm.symm))
    | cons d a =>
      rw [cons_append, List.cons.injEq] at hrest
      have hmem : '$' ∈ "term".toList := by
        rw [hterm, hrest.1]
        exact mem_append_right _ (mem_cons_self ..)
      exact absurd hmem (by decide)
  · -- A longer name goes on with one dollar sign, or else it is not plain.
    match a, hrest with
    | [], _ => exact .inl (String.toList_inj.mp (by simpa using hterm))
    | [d], hrest =>
      rw [cons_append, List.cons.injEq] at hrest
      refine .inr (String.toList_inj.mp ?_)
      rw [hterm, ← hrest.1]
      rfl
    | d :: e :: a, hrest =>
      rw [cons_append, cons_append, List.cons.injEq, List.cons.injEq] at hrest
      refine absurd ⟨"term".toList, a, ?_⟩ hx
      rw [hterm, ← hrest.1, ← hrest.2.1]
      simp

theorem eq_term_of_versionName_eq_valueName (hx : PlainName x) (h : versionName x k = valueName y) :
    x = "term" ∨ x = "term$" :=
  eq_term_of_append_eq_valueName hx h

/-- The name under which the value of a bound variable appears once its
    binder was renamed. -/
def CapturedName (n : String) : Prop :=
  ∃ x k, PlainName x ∧ n = renamedBinder (valueName x) k

theorem exists_free_candidate (n mark : String) (taken : List String) :
    ∃ m, ((List.range (taken.length + 1)).map fun k => n ++ mark ++ toString k).find?
      (!taken.contains ·) = some m := by
  rw [← Option.isSome_iff_exists, ← Option.not_isNone, Bool.not_eq_true', Bool.eq_false_iff]
  intro hnone
  have hall : (List.range (taken.length + 1)).map (fun k => n ++ mark ++ toString k) ⊆ taken := by
    intro m hm
    simpa using find?_eq_none.mp (Option.isNone_iff_eq_none.mp hnone) m hm
  -- The candidates are distinct, and one more than the names that are taken.
  have hnodup : ((List.range (taken.length + 1)).map fun k =>
      n ++ mark ++ toString k).Nodup :=
    Pairwise.map _ (fun j k hjk h => hjk (toString_nat_inj
      ((String.append_right_inj _).mp h))) nodup_range
  have hlen := (subperm_of_subset hnodup hall).length_le
  rw [length_map, length_range] at hlen
  omega

theorem freshNumbered_numbered (n mark : String) (taken : List String) :
    freshNumbered n mark taken ∉ taken ∧
      ∃ k : Nat, freshNumbered n mark taken = n ++ mark ++ toString k := by
  rcases exists_free_candidate n mark taken with ⟨m, hm⟩
  have hcand : freshNumbered n mark taken = m := by
    simp only [freshNumbered, hm, Option.getD_some]
  have hfree : m ∉ taken := by
    simpa using find?_some hm
  rcases mem_map.mp (mem_of_find?_eq_some hm) with ⟨k, _, hk⟩
  rw [hcand]
  exact ⟨hfree, k, hk.symm⟩

theorem freshNumbered_spec (n : String) (taken : List String) :
    freshNumbered n "$$q" taken ∉ taken ∧ ∃ k, freshNumbered n "$$q" taken = renamedBinder n k :=
  freshNumbered_numbered n "$$q" taken

end Vouch
