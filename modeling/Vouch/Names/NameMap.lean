/-!
# Finite Maps Keyed by Names

Declarations, substitutions, and caches of variables are all finite maps from names, and
all of them are small. A list of entries without repeated keys is enough: the map
evaluates by plain computation, and every fact about it follows from facts about lists.

## Main definitions

* `NameMap`: Entries without repeated keys.

## Theorems

* `NameMap.find?_insert`: What is found after inserting.
* `NameMap.find?_eraseAll`: What is found after removing names.
* `NameMap.find?_ofList`: What is found in the map of a list.
-/

namespace Vouch

universe u

/-- A finite map from names. -/
structure NameMap (β : Type u) where
  /-- The entries, latest first. -/
  entries : List (String × β) := []

namespace NameMap

variable {β : Type u}

/-- The map without entries. -/
def empty : NameMap β := {}

instance : EmptyCollection (NameMap β) := ⟨empty⟩

instance : Inhabited (NameMap β) := ⟨empty⟩

/-- The value stored under a name. -/
def find? (m : NameMap β) (name : String) : Option β :=
  m.entries.lookup name

/-- Whether a name has a value. -/
def contains (m : NameMap β) (name : String) : Bool :=
  (m.find? name).isSome

/-- Remove every entry whose name is listed. -/
def eraseAll (m : NameMap β) (names : List String) : NameMap β :=
  ⟨m.entries.filter fun e => !names.contains e.1⟩

/-- Store a value, replacing what the name had before. -/
def insert (m : NameMap β) (name : String) (value : β) : NameMap β :=
  ⟨(name, value) :: (m.eraseAll [name]).entries⟩

/-- Insert entries from left to right, so that later ones win. -/
def insertAll (m : NameMap β) (entries : List (String × β)) : NameMap β :=
  entries.foldl (fun m e => m.insert e.1 e.2) m

/-- The map of a list of entries, later ones winning. -/
def ofList (entries : List (String × β)) : NameMap β :=
  empty.insertAll entries

/-- The names that have a value. -/
def keys (m : NameMap β) : List String :=
  m.entries.map (·.1)

/-- The stored values. -/
def values (m : NameMap β) : List β :=
  m.entries.map (·.2)

/-- Whether no name has a value. -/
def isEmpty (m : NameMap β) : Bool :=
  m.entries.isEmpty

@[simp]
theorem find?_empty (name : String) : (empty : NameMap β).find? name = none := rfl

/-- Removing names hides exactly those names. -/
theorem find?_eraseAll (m : NameMap β) (names : List String) (name : String) :
    (m.eraseAll names).find? name = if name ∈ names then none else m.find? name := by
  obtain ⟨entries⟩ := m
  simp only [eraseAll, find?]
  induction entries with
  | nil => simp
  | cons e rest ih =>
    obtain ⟨k, v⟩ := e
    by_cases hk : k ∈ names
    · by_cases hn : name = k
      · subst hn
        simpa [List.filter_cons, List.lookup_cons, hk] using ih
      · have : (name == k) = false := by simpa using hn
        simpa [List.filter_cons, List.lookup_cons, hk, this] using ih
    · by_cases hn : name = k
      · subst hn
        simp [hk]
      · have : (name == k) = false := by simpa using hn
        simpa [List.filter_cons, List.lookup_cons, hk, this] using ih

/-- Reading after a write gives the written value at its own name and the
    old value at every other. -/
theorem find?_insert (m : NameMap β) (k : String) (v : β) (name : String) :
    (m.insert k v).find? name = if name = k then some v else m.find? name := by
  by_cases h : name = k
  · subst h
    simp [insert, find?]
  · have hb : (name == k) = false := by simpa using h
    have herase := find?_eraseAll m [k] name
    simp only [List.mem_singleton, h, if_false] at herase
    simpa [insert, find?, List.lookup_cons, hb, h] using herase

theorem find?_insert_eq_none_iff {m : NameMap β} {p : String × β} {name : String} :
    (m.insert p.1 p.2).find? name = none ↔ name ≠ p.1 ∧ m.find? name = none := by
  rw [find?_insert]
  by_cases h : name = p.1 <;> simp [h]

/-- New entries with different keys are there beside the old ones. -/
theorem find?_insertAll {x : String} {v : β} : ∀ {entries : List (String × β)} {m : NameMap β},
    (entries.map (·.1)).Nodup → (∀ p ∈ entries, m.find? p.1 = none) →
      ((m.insertAll entries).find? x = some v ↔ m.find? x = some v ∨ (x, v) ∈ entries)
  | [], m, _, _ => by simp [insertAll]
  | p :: entries, m, hnodup, hnew => by
    rw [List.map_cons, List.nodup_cons] at hnodup
    rw [List.forall_mem_cons] at hnew
    have hnew' : ∀ q ∈ entries, (m.insert p.1 p.2).find? q.1 = none := fun q hq =>
      find?_insert_eq_none_iff.mpr
        ⟨fun heq => hnodup.1 (List.mem_map.mpr ⟨q, hq, heq⟩), hnew.2 q hq⟩
    have hrest := find?_insertAll (x := x) (v := v) hnodup.2 hnew'
    have hinsert : (m.insertAll (p :: entries)) = (m.insert p.1 p.2).insertAll entries := rfl
    rw [hinsert, hrest, find?_insert, List.mem_cons, Prod.ext_iff]
    -- The map has nothing for the key that is added.
    by_cases hx : x = p.1
    · simp [hx, hnew.1, eq_comm]
    · simp [hx]

theorem find?_ofList {name : String} {v : β} {entries : List (String × β)}
    (h : (entries.map (·.1)).Nodup) :
    (ofList entries).find? name = some v ↔ (name, v) ∈ entries := by
  rw [ofList, find?_insertAll h fun _ _ => rfl]
  simp

theorem mem_values_of_find? {m : NameMap β} {name : String} {v : β}
    (h : m.find? name = some v) : v ∈ m.values := by
  rcases List.lookup_eq_some_iff.mp h with ⟨before, after, hentries, _⟩
  refine List.mem_map.mpr ⟨(name, v), ?_, rfl⟩
  rw [hentries]
  simp

end NameMap

end Vouch
