import Vouch.Proofs.Term.Definitions

/-!
# Terms on One Line

The program that reads terms tells commands from queries by how a line starts, and lines
from each other by line breaks. Names are printed as they are.

## Main definitions

* `Tame`: A text is one line and does not start like a command.
* `Head.Inline`: The names in a head are tame, and a function symbol is behind a
  parenthesis.

## Theorems

* `Term.tame_text`: Then the text of a term is tame.
-/

namespace Vouch

open List

/-- What commands start with. -/
def commandMark : List Char := ['(', 'B', 'G', '_']

/-- The text is one line and does not start like a command. -/
structure Tame (s : String) : Prop where
  newline : '\n' ∉ s.toList
  mark : ¬ commandMark <+: s.toList

instance (s : String) : Decidable (Tame s) :=
  decidable_of_iff ('\n' ∉ s.toList ∧ ¬ commandMark <+: s.toList)
    ⟨fun h => ⟨h.1, h.2⟩, fun h => ⟨h.newline, h.mark⟩⟩

/-- The names in the head are tame, and so is a function symbol behind a
    parenthesis. -/
structure Head.Inline (h : Head) : Prop where
  name : ∀ n, h.payload = some (.name n) → Tame n
  function : ∀ f, h.op = .app f → Tame f ∧ Tame ("(" ++ f)

theorem not_prefix_append_cons {α : Type} {p a b : List α} {c : α} (hc : c ∉ p)
    (ha : ¬ p <+: a) : ¬ p <+: a ++ c :: b := by
  intro h
  -- Of `p` and `a` one starts with the other, and a longer `p` would contain `c`.
  rcases prefix_or_prefix_of_prefix h (prefix_append a (c :: b)) with hp | ⟨q, rfl⟩
  · exact ha hp
  · rw [prefix_append_right_inj] at h
    cases q with
    | nil => exact ha (by simp)
    | cons d q =>
      rw [cons_prefix_cons] at h
      exact hc (by simp [h.1])

theorem mem_intercalate {α : Type} {x : α} {sep : List α} {ls : List (List α)}
    (h : x ∈ sep.intercalate ls) : x ∈ sep ∨ ∃ l ∈ ls, x ∈ l := by
  induction ls with
  | nil => simp at h
  | cons l ls ih =>
    cases ls with
    | nil => exact .inr ⟨l, by simp, by simpa using h⟩
    | cons l' ls =>
      rw [intercalate_cons_cons, mem_append, mem_append] at h
      rcases h with (h | h) | h
      · exact .inr ⟨l, by simp, h⟩
      · exact .inl h
      · rcases ih h with h | ⟨m, hm, hx⟩
        · exact .inl h
        · exact .inr ⟨m, by simp [hm], hx⟩

namespace Term

variable {items : List String}

theorem newline_not_mem_spaced (h : ∀ i ∈ items, '\n' ∉ i.toList) :
    '\n' ∉ (spaced items).toList := by
  intro hmem
  rw [spaced, String.toList_intercalate] at hmem
  rcases mem_intercalate hmem with hmem | ⟨l, hl, hmem⟩
  · exact absurd hmem (by decide)
  · rcases mem_map.mp hl with ⟨i, hi, rfl⟩
    exact h i hi hmem

theorem tame_spaced (h : ∀ i ∈ items, Tame i) : Tame (spaced items) := by
  refine ⟨newline_not_mem_spaced fun i hi => (h i hi).newline, ?_⟩
  rw [spaced, String.toList_intercalate]
  rcases items with _ | ⟨i, _ | ⟨j, items⟩⟩
  · decide
  · simpa using (h i (by simp)).mark
  · rw [map_cons, map_cons, intercalate_cons_cons, append_assoc]
    exact not_prefix_append_cons (by decide) (h i (by simp)).mark

theorem tame_applied {symbol : String} (hsymbol : Tame ("(" ++ symbol))
    (h : ∀ i ∈ items, '\n' ∉ i.toList) : Tame (applied symbol items) := by
  have hword : '\n' ∉ symbol.toList := by
    have hnewline := hsymbol.newline
    simp only [String.toList_append, mem_append, not_or] at hnewline
    exact hnewline.2
  have hspaced : '\n' ∉ (spaced (symbol :: items)).toList :=
    newline_not_mem_spaced (by simpa [hword] using h)
  have hmark := hsymbol.mark
  rw [String.toList_append] at hmark
  refine ⟨by simp [applied, hspaced], ?_⟩
  -- Behind the symbol comes a blank or a parenthesis, and neither is in the mark.
  rw [applied, String.toList_append, String.toList_append, spaced, String.toList_intercalate]
  rcases items with _ | ⟨i, items⟩
  · rw [map_cons, map_nil, intercalate_singleton]
    exact not_prefix_append_cons (by decide) hmark
  · rw [map_cons, map_cons, intercalate_cons_cons, ← append_assoc,
      ← append_assoc, append_assoc, append_assoc]
    exact not_prefix_append_cons (by decide) hmark

theorem texts_eq_map (ts : List Term) : texts ts = ts.map text := by
  induction ts with
  | nil => rw [texts, map_nil]
  | cons t ts ih => rw [texts, ih, map_cons]

theorem tame_keyword {op : Op} (h : ∀ f, op ≠ .app f) : Tame ("(" ++ op.keyword) := by
  cases op with
  | app f => exact absurd rfl (h f)
  | _ => decide

theorem tame_numbered (k : Nat) :
    Tame ("(" ++ ("MAP_SELECT" ++ toString k)) ∧ Tame ("(" ++ ("MAP_UPDATE" ++ toString k)) := by
  have hk : '\n' ∉ Nat.toDigits 10 k := not_mem_toDigits (by decide) k
  exact ⟨⟨by simp [hk], by simp [commandMark]⟩, ⟨by simp [hk], by simp [commandMark]⟩⟩

theorem tame_literal {l : Literal} (h : ∀ n, l = .name n → Tame n) (sort : TermSort) :
    Tame (l.text sort) := by
  cases l with
  | name n => exact h n rfl
  | bool b => cases sort <;> cases b <;> decide
  | int i =>
    cases i with
    | ofNat k =>
      have hk : '\n' ∉ Nat.toDigits 10 k := not_mem_toDigits (by decide) k
      -- Digits alone cannot start with a parenthesis.
      have hparen : '(' ∉ Nat.toDigits 10 k := not_mem_toDigits (by decide) k
      refine ⟨by simpa [Literal.text] using hk, fun hmark => hparen ?_⟩
      have hmem : '(' ∈ (Literal.text sort (.int (.ofNat k))).toList :=
        hmark.subset (by decide)
      simpa [Literal.text] using hmem
    | negSucc k =>
      have hk : '\n' ∉ Nat.toDigits 10 (k + 1) := not_mem_toDigits (by decide) _
      exact ⟨by simp [Literal.text, hk], by simp [Literal.text, commandMark]⟩

/-- What is printed apart from names is tame, and so are the names. -/
theorem tame_text (t : Term) (h : Everywhere Head.Inline t) : Tame t.text := by
  induction t using Term.induction with
  | step t ih =>
    obtain ⟨id, ⟨op, sort, payload⟩, cs, as⟩ := t
    have htame : ∀ i ∈ texts cs, Tame i := by
      intro i hi
      rw [texts_eq_map] at hi
      rcases mem_map.mp hi with ⟨c, hc, rfl⟩
      exact ih c hc (h.operand hc)
    have hitems : ∀ i ∈ texts cs, '\n' ∉ i.toList := fun i hi => (htame i hi).newline
    have hspaced := newline_not_mem_spaced hitems
    have hunknown : Tame "?" := by decide
    rw [text]
    -- Operators that are printed in their own way first, then those that are applied.
    cases op with
    | var =>
      cases payload with
      | none => exact hunknown
      | some l =>
        cases l with
        | name n => exact h.head.name n rfl
        | _ => exact hunknown
    | lit =>
      cases payload with
      | none => exact hunknown
      | some l => exact tame_literal (fun n hn => h.head.name n (congrArg some hn)) sort
    | and | or =>
      by_cases hcs : cs.isEmpty = true
      · simp only [hcs, if_true]
        decide
      · simp only [hcs, if_false, Bool.false_eq_true]
        exact tame_applied (by decide) hitems
    | all =>
      have hvars : '\n' ∉ (spaced (texts cs).dropLast).toList :=
        newline_not_mem_spaced fun i hi => hitems i (dropLast_subset _ hi)
      have hbody : '\n' ∉ (spaced (texts cs).getLast?.toList).toList :=
        newline_not_mem_spaced fun i hi => hitems i (mem_of_getLast? (by simpa using hi))
      exact ⟨by simp [hvars, hbody], by simp [commandMark]⟩
    | neg => exact ⟨by simp [hspaced], by simp [commandMark]⟩
    | tuple => exact tame_spaced htame
    | mapSelect => exact tame_applied (tame_numbered _).1 hitems
    | mapUpdate => exact tame_applied (tame_numbered _).2 hitems
    | app f =>
      rcases h.head.function f rfl with ⟨hf, happlied⟩
      by_cases hcs : cs.isEmpty = true
      · simp only [hcs, if_true]
        exact hf
      · simp only [hcs, if_false, Bool.false_eq_true]
        exact tame_applied happlied hitems
    | _ => exact tame_applied (tame_keyword (by simp)) hitems

end Term

theorem inline_sharedHead (k : Nat) (sort : TermSort) : (sharedHead k sort).Inline := by
  refine ⟨fun n hn => ?_, fun f hf => absurd hf (by simp [sharedHead])⟩
  have hname : n = sharedName k := by simpa [sharedHead] using hn.symm
  have hk : '\n' ∉ Nat.toDigits 10 k := not_mem_toDigits (by decide) k
  rw [hname]
  exact ⟨by simp [sharedName, versionName, shareName, hk],
    by simp [sharedName, versionName, shareName, commandMark]⟩

theorem Head.Inline.of_payload {h : Head} (hpayload : ∀ n, h.payload ≠ some (.name n))
    (hop : ∀ f, h.op ≠ .app f) : h.Inline :=
  ⟨fun n hn => absurd hn (hpayload n), fun f hf => absurd hf (hop f)⟩

end Vouch
