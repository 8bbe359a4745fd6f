/-!
# Sorted Sets of Names

Read sets, write sets, and free variables are reported in increasing order of
their names, each name once. The order is the one of code points, which is
also the order of the UTF-8 bytes. Keeping the members sorted makes the
printed form a function of the set alone.

## Main definitions

* `NameSet`: Names in strictly increasing order.

## Theorems

* `NameSet.mem_insertAll`: The members after adding names.
* `NameSet.mem_ofList`: The members of the set of a list.
-/

namespace Vouch

/-- A set of names, listed in strictly increasing order. -/
structure NameSet where
  /-- The members in increasing order. -/
  toList : List String
  /-- The members are listed without repetition and in order. -/
  sorted : toList.Pairwise (· < ·) := by simp

namespace NameSet

instance : EmptyCollection NameSet := ⟨{ toList := [] }⟩

instance : Inhabited NameSet := ⟨∅⟩

instance : Membership String NameSet := ⟨fun s name => name ∈ s.toList⟩

instance (name : String) (s : NameSet) : Decidable (name ∈ s) :=
  inferInstanceAs (Decidable (name ∈ s.toList))

/-- Insert into an increasing list, keeping it increasing. -/
def insertSorted (name : String) : List String → List String
  | [] => [name]
  | x :: xs =>
    if name = x then x :: xs
    else if name < x then name :: x :: xs
    else x :: insertSorted name xs

@[simp]
theorem mem_insertSorted {a name : String} {xs : List String} :
    a ∈ insertSorted name xs ↔ a = name ∨ a ∈ xs := by
  induction xs with
  | nil => simp [insertSorted]
  | cons x xs ih =>
    simp only [insertSorted]
    split
    · next h => subst h; simp
    · split
      · simp
      · simp only [List.mem_cons, ih]
        grind

theorem pairwise_insertSorted {name : String} {xs : List String}
    (h : xs.Pairwise (· < ·)) : (insertSorted name xs).Pairwise (· < ·) := by
  induction xs with
  | nil => simp [insertSorted]
  | cons x xs ih =>
    obtain ⟨hx, hxs⟩ := List.pairwise_cons.1 h
    simp only [insertSorted]
    split
    · exact h
    · next hne =>
      split
      · next hlt =>
        refine List.pairwise_cons.2 ⟨fun y hy => ?_, h⟩
        rcases List.mem_cons.1 hy with rfl | hy
        · exact hlt
        · exact String.lt_trans hlt (hx y hy)
      · next hnlt =>
        refine List.pairwise_cons.2 ⟨fun y hy => ?_, ih hxs⟩
        rcases mem_insertSorted.1 hy with rfl | hy
        · -- Neither equal nor smaller, so the new name comes after.
          rcases Decidable.em (x < y) with hlt | hge
          · exact hlt
          · exact absurd (String.le_antisymm (String.not_lt.1 hge) (String.not_lt.1 hnlt)) hne
        · exact hx y hy

/-- Add a name. -/
def insert (s : NameSet) (name : String) : NameSet :=
  ⟨insertSorted name s.toList, pairwise_insertSorted s.sorted⟩

/-- Add every listed name. -/
def insertAll (s : NameSet) (names : List String) : NameSet :=
  names.foldl insert s

/-- The set of the listed names. -/
def ofList (names : List String) : NameSet :=
  insertAll ∅ names

/-- The members of either set. -/
def union (s t : NameSet) : NameSet :=
  s.insertAll t.toList

/-- Whether the set has no member. -/
def isEmpty (s : NameSet) : Bool :=
  s.toList.isEmpty

theorem mem_def {a : String} {s : NameSet} : a ∈ s ↔ a ∈ s.toList := Iff.rfl

@[simp]
theorem not_mem_empty (a : String) : ¬ a ∈ (∅ : NameSet) := by
  simp [mem_def, EmptyCollection.emptyCollection]

@[simp]
theorem mem_insert {a name : String} {s : NameSet} : a ∈ s.insert name ↔ a = name ∨ a ∈ s :=
  mem_insertSorted

@[simp]
theorem mem_insertAll {a : String} {s : NameSet} {names : List String} :
    a ∈ s.insertAll names ↔ a ∈ s ∨ a ∈ names := by
  induction names generalizing s with
  | nil => simp [insertAll]
  | cons n ns ih =>
    have : s.insertAll (n :: ns) = (s.insert n).insertAll ns := rfl
    rw [this, ih]
    simp only [mem_insert, List.mem_cons]
    grind

@[simp]
theorem mem_ofList {a : String} {names : List String} : a ∈ ofList names ↔ a ∈ names := by
  simp [ofList]

@[simp]
theorem mem_union {a : String} {s t : NameSet} : a ∈ s.union t ↔ a ∈ s ∨ a ∈ t := by
  simp [union, mem_def.symm]

end NameSet

end Vouch
