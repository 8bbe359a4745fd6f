import Vouch.Proofs.Condition.Versions

/-!
# Renumbering Generated Names

The number of a version says how many names were generated before it, and nothing about
the variable. So a routine that is verified after others has other numbers in its
condition, and nobody should be able to tell the difference.

## Main definitions

* `Renumbering`: A change of numbers that keeps names apart and goes along with renamed
  binders.
* `Scope.Generated`: Names that are made for a scope.
* `Scope.shift`: Increases the numbers of all versions of declared variables.

## Theorems

* `Scope.shift_of_not_generated`: Every other name is left alone.
* `Scope.not_generated_valueName`: Plain names are among these, unless a boolean is
  called `term`.
-/

namespace Vouch

open List

/-- The second name is the first with another number in it, which may be followed
    by the marks of renamed binders. -/
inductive Renumbers : String → String → Prop where
  | refl (n : String) : Renumbers n n
  | version (x : String) (j k : Nat) : Renumbers (versionName x j) (versionName x k)
  | renamed {m n : String} (h : Renumbers m n) (k : Nat) :
      Renumbers (renamedBinder m k) (renamedBinder n k)

/-- A change of the numbers in generated names that keeps names apart and does not
    depend on the marks of renamed binders. -/
structure Renumbering where
  /-- What becomes of a name. -/
  name : String → String
  injective : Function.Injective name
  renumbers : ∀ n, Renumbers n (name n)
  renamed : ∀ n k, name (renamedBinder n k) = renamedBinder (name n) k

namespace Renumbering

variable (ρ : Renumbering)

theorem fixed_of_plainName {x : String} (hx : PlainName x) : ρ.name x = x := by
  have h := ρ.renumbers x
  generalize ρ.name x = y at h
  cases h with
  | refl => rfl
  | version x j k => exact absurd rfl (plainName_ne_versionName hx)
  | renamed h k => exact absurd rfl (plainName_ne_renamedBinder hx)

theorem contains_map (names : List String) (n : String) :
    (names.map ρ.name).contains (ρ.name n) = names.contains n := by
  rw [Bool.eq_iff_iff, contains_iff_mem, contains_iff_mem,
    mem_map_of_injective ρ.injective]

theorem freshNumbered_map (n : String) (taken : List String) :
    freshNumbered (ρ.name n) "$$q" (taken.map ρ.name) = ρ.name (freshNumbered n "$$q" taken) := by
  rcases exists_free_candidate n "$$q" taken with ⟨m, hm⟩
  have hfirst : ((List.range ((taken.map ρ.name).length + 1)).map fun k =>
      ρ.name n ++ "$$q" ++ toString k).find? (!(taken.map ρ.name).contains ·) =
        some (ρ.name m) := by
    have hmap : ((List.range ((taken.map ρ.name).length + 1)).map fun k =>
        ρ.name n ++ "$$q" ++ toString k) =
        ((List.range (taken.length + 1)).map fun k => n ++ "$$q" ++ toString k).map ρ.name := by
      rw [length_map, map_map]
      exact map_congr_left fun k _ => (ρ.renamed n k).symm
    rw [hmap, find?_map, ← Option.map_some, ← hm]
    congr 2
    funext x
    exact congrArg not (ρ.contains_map taken x)
  simp only [freshNumbered, hm, hfirst, Option.getD_some]

end Renumbering

namespace Scope

variable {s : Scope}

/-- The name gets versions: it is that of a boolean, or of the value of a variable. -/
def Versioned (s : Scope) (n : String) : Prop :=
  s.varType? n = some .bool ∨ ∃ x T, s.varType? x = some T ∧ n = valueName x

/-- The name is made for the scope: a version, or a version that was bound and
    renamed. -/
inductive Generated (s : Scope) : String → Prop where
  | version {n : String} (h : s.Versioned n) (k : Nat) : Generated s (versionName n k)
  | renamed {n : String} (h : Generated s n) (k : Nat) : Generated s (renamedBinder n k)

theorem generated_renamedBinder {n : String} {k : Nat} :
    s.Generated (renamedBinder n k) ↔ s.Generated n := by
  refine ⟨fun h => ?_, fun h => .renamed h k⟩
  generalize hm : renamedBinder n k = m at h
  cases h with
  | version h j => exact absurd hm.symm (versionName_ne_renamedBinder _ _ _ _)
  | renamed h j =>
    rw [(renamedBinder_inj hm).1]
    exact h

/-! ### Shifting numbers -/

/-- The second name is the first with the number of its version increased. -/
inductive Shifts (s : Scope) (d : Nat) : String → String → Prop where
  | version {n : String} (h : s.Versioned n) (k : Nat) :
      Shifts s d (versionName n k) (versionName n (k + d))
  | renamed {m n : String} (h : Shifts s d m n) (k : Nat) :
      Shifts s d (renamedBinder m k) (renamedBinder n k)

variable {d : Nat} {m n : String}

theorem Generated.exists_shifts (h : s.Generated n) (d : Nat) : ∃ m, s.Shifts d n m := by
  induction h with
  | version h k => exact ⟨_, .version h k⟩
  | renamed _ k ih =>
    rcases ih with ⟨m, hm⟩
    exact ⟨_, .renamed hm k⟩

theorem Shifts.generated (h : s.Shifts d m n) : s.Generated m ∧ s.Generated n := by
  induction h with
  | version h k => exact ⟨.version h k, .version h (k + d)⟩
  | renamed _ k ih => exact ⟨.renamed ih.1 k, .renamed ih.2 k⟩

theorem Shifts.renumbers (h : s.Shifts d m n) : Renumbers m n := by
  induction h with
  | version _ k => exact .version _ k (k + d)
  | renamed _ k ih => exact .renamed ih k

theorem Shifts.unique (h : s.Shifts d m n) : ∀ {m' n' : String}, s.Shifts d m' n' →
    (m = m' ↔ n = n') := by
  induction h with
  | version _ k =>
    intro m' n' h'
    cases h' with
    | version _ j =>
      constructor
      · intro heq
        rcases versionName_inj heq with ⟨rfl, rfl⟩
        rfl
      · intro heq
        rcases versionName_inj heq with ⟨rfl, hkj⟩
        rw [Nat.add_right_cancel hkj]
    | renamed _ j =>
      exact ⟨fun heq => absurd heq (versionName_ne_renamedBinder _ _ _ _),
        fun heq => absurd heq (versionName_ne_renamedBinder _ _ _ _)⟩
  | renamed _ k ih =>
    intro m' n' h'
    cases h' with
    | version _ j =>
      exact ⟨fun heq => absurd heq.symm (versionName_ne_renamedBinder _ _ _ _),
        fun heq => absurd heq.symm (versionName_ne_renamedBinder _ _ _ _)⟩
    | renamed h' j =>
      constructor
      · intro heq
        rcases renamedBinder_inj heq with ⟨hmm', rfl⟩
        rw [(ih h').mp hmm']
      · intro heq
        rcases renamedBinder_inj heq with ⟨hnn', rfl⟩
        rw [(ih h').mpr hnn']

open Classical in
/-- The name with its number increased if it is generated, and as it is if not. -/
noncomputable def shifted (s : Scope) (d : Nat) (n : String) : String :=
  if h : ∃ m, s.Shifts d n m then h.choose else n

theorem Shifts.shifted_eq (h : s.Shifts d m n) : s.shifted d m = n := by
  have hex : ∃ n, s.Shifts d m n := ⟨n, h⟩
  rw [shifted, dif_pos hex]
  exact (hex.choose_spec.unique h).mp rfl

theorem shifted_of_not_generated (h : ¬ s.Generated n) (d : Nat) : s.shifted d n = n := by
  rw [shifted, dif_neg]
  rintro ⟨m, hm⟩
  exact h hm.generated.1

theorem shifted_injective (s : Scope) (d : Nat) : Function.Injective (s.shifted d) := by
  intro a b hab
  by_cases ha : s.Generated a
  · rcases ha.exists_shifts d with ⟨a', ha'⟩
    rw [ha'.shifted_eq] at hab
    by_cases hb : s.Generated b
    · rcases hb.exists_shifts d with ⟨b', hb'⟩
      rw [hb'.shifted_eq] at hab
      exact (ha'.unique hb').mpr hab
    · -- What a name is shifted to is generated itself.
      rw [shifted_of_not_generated hb] at hab
      exact absurd (hab ▸ ha'.generated.2) hb
  · rw [shifted_of_not_generated ha] at hab
    by_cases hb : s.Generated b
    · rcases hb.exists_shifts d with ⟨b', hb'⟩
      rw [hb'.shifted_eq] at hab
      exact absurd (hab ▸ hb'.generated.2) ha
    · rwa [shifted_of_not_generated hb] at hab

theorem shifted_renumbers (s : Scope) (d : Nat) (n : String) : Renumbers n (s.shifted d n) := by
  by_cases hn : s.Generated n
  · rcases hn.exists_shifts d with ⟨m, hm⟩
    rw [hm.shifted_eq]
    exact hm.renumbers
  · rw [shifted_of_not_generated hn]
    exact .refl n

theorem shifted_renamedBinder (s : Scope) (d : Nat) (n : String) (k : Nat) :
    s.shifted d (renamedBinder n k) = renamedBinder (s.shifted d n) k := by
  by_cases hn : s.Generated n
  · rcases hn.exists_shifts d with ⟨m, hm⟩
    rw [hm.shifted_eq, (hm.renamed k).shifted_eq]
  · rw [shifted_of_not_generated hn, shifted_of_not_generated (mt generated_renamedBinder.mp hn)]

/-- Increase the numbers of all versions of declared variables. -/
noncomputable def shift (s : Scope) (d : Nat) : Renumbering where
  name := s.shifted d
  injective := s.shifted_injective d
  renumbers := s.shifted_renumbers d
  renamed := s.shifted_renamedBinder d

theorem shift_versionName (h : s.Versioned n) (d k : Nat) :
    (s.shift d).name (versionName n k) = versionName n (k + d) :=
  (Shifts.version h k).shifted_eq

theorem shift_of_not_generated (h : ¬ s.Generated n) (d : Nat) : (s.shift d).name n = n :=
  shifted_of_not_generated h d

end Scope

/-! ### Names that no version has -/

/-- No digit follows two dollar signs. -/
def Unnumbered (x : String) : Prop :=
  ∀ d : Char, d.isDigit → ¬ ['$', '$', d] <:+: x.toList

theorem unnumbered_of_plainName {x : String} (hx : PlainName x) : Unnumbered x := by
  rintro d _ ⟨a, b, hab⟩
  refine hx ⟨a, d :: b, ?_⟩
  rw [← hab]
  simp

theorem exists_toString_eq_cons (k : Nat) : ∃ d ds, (toString k).toList = d :: ds ∧ d.isDigit := by
  rw [Nat.toString_eq_repr, Nat.toList_repr]
  cases hk : Nat.toDigits 10 k with
  | nil => exact absurd hk Nat.toDigits_ne_nil
  | cons d ds =>
    have hmem : d ∈ Nat.toDigits 10 k := by simp [hk]
    exact ⟨d, ds, rfl, Nat.isDigit_of_mem_toDigits (by decide) (by decide) hmem⟩

theorem Unnumbered.mark {x : String} (hx : Unnumbered x) (k : Nat) :
    Unnumbered (x ++ "$q" ++ toString k) := by
  rintro d hd ⟨a, b, hab⟩
  have hlist : a ++ '$' :: '$' :: d :: b = x.toList ++ '$' :: 'q' :: (toString k).toList := by
    simpa using hab
  rcases append_eq_append_iff.mp hlist with ⟨c, hxa, hrest⟩ | ⟨c, hax, hrest⟩
  · -- The two dollar signs start in the name. If they end there, then so does the digit.
    match c, hrest with
    | [], hrest => cases hrest
    | [_], hrest =>
      simp only [cons_append, nil_append, List.cons.injEq] at hrest
      obtain ⟨_, _, rfl, _⟩ := hrest
      exact absurd hd (by decide)
    | [_, _], hrest =>
      simp only [cons_append, nil_append, List.cons.injEq] at hrest
      obtain ⟨_, _, rfl, _⟩ := hrest
      exact absurd hd (by decide)
    | _ :: _ :: e :: c, hrest =>
      simp only [cons_append, List.cons.injEq] at hrest
      obtain ⟨rfl, rfl, rfl, _⟩ := hrest
      exact hx d hd ⟨a, c, by rw [hxa]; simp⟩
  · -- Or they start in the mark, which has only one.
    match c, hrest with
    | [], hrest => cases hrest
    | _ :: c, hrest =>
      simp only [cons_append, List.cons.injEq] at hrest
      refine absurd ?_ (dollar_not_mem_cons k)
      rw [hrest.2]
      exact mem_append_right _ mem_cons_self

namespace Scope

variable {s : Scope}

theorem Generated.exists_version {n : String} (h : s.Generated n) :
    ∃ m k u, s.Versioned m ∧ n = m ++ "$$" ++ (toString (k : Nat) ++ u) := by
  induction h with
  | @version m hm k =>
    refine ⟨m, k, "", hm, ?_⟩
    rw [String.append_empty]
    rfl
  | @renamed n _ j ih =>
    rcases ih with ⟨m, k, u, hm, rfl⟩
    refine ⟨m, k, u ++ "$$q" ++ toString j, hm, ?_⟩
    simp only [renamedBinder, String.append_assoc]

theorem not_generated_of_plainName {n : String} (hn : PlainName n) : ¬ s.Generated n := by
  intro h
  rcases h.exists_version with ⟨m, k, u, _, rfl⟩
  exact not_plainName_append m _ hn

/-- A value is no version, unless a boolean is called `term`. -/
theorem not_generated_valueName (hs : s.PlainNames)
    (hterm : ∀ x, s.varType? x = some .bool → x ≠ "term" ∧ x ≠ "term$") {x : String}
    (hx : Unnumbered x) : ¬ s.Generated (valueName x) := by
  intro h
  rcases h.exists_version with ⟨m, k, u, hm | ⟨y, T, _, rfl⟩, heq⟩
  · rcases eq_term_of_append_eq_valueName (hs m _ hm) heq.symm with rfl | rfl
    · exact (hterm _ hm).1 rfl
    · exact (hterm _ hm).2 rfl
  · rcases exists_toString_eq_cons k with ⟨d, ds, hk, hd⟩
    have hxy : x = y ++ "$$" ++ (toString k ++ u) := by
      apply valueName_inj
      rw [heq]
      simp only [valueName, String.append_assoc]
    refine hx d hd ⟨y.toList, ds ++ u.toList, ?_⟩
    rw [hxy, String.toList_append, String.toList_append, String.toList_append, hk]
    simp

end Scope

end Vouch
