import Mathlib.Data.List.Forall2
import Vouch.Json.Parser

/-!
# Reading Back a Written Value

The text is cut into words first and the words are put together afterwards, so the proof
has two halves that meet in the words a value is made of. In the first half the only
word whose end is not visible is a number: it goes on as long as digits follow.

## Main definitions

* `Json.Plain`: All numbers are integers and all strings have texts.
* `Json.Token.Spells`: A piece of text makes up words.
* `Json.words`: The words of a value.

## Theorems

* `Json.parse?_compact`: The shortest text of a plain value is read back.
-/

namespace Vouch

open List

namespace Json

/-- Integers are the only numbers in the value, and all its strings have texts. -/
inductive Plain : Json → Prop
  | null : Plain .null
  | bool (b : Bool) : Plain (.bool b)
  | int (n : Int) : Plain (.int n)
  | text (s : String) : Plain (text s)
  | arr {items : List Json} : (∀ j ∈ items, Plain j) → Plain (.arr items)
  | record {members : List (String × Json)} : (∀ m ∈ members, Plain m.2) → Plain (record members)

namespace Token

/-! ## String Literals -/

variable {c : Char} {cs rest : List Char} {us : List Token}

theorem readUnits_cons (hquote : c ≠ '"') (hslash : c ≠ '\\') (hc : 32 ≤ c.toNat) (cs : List Char) :
    readUnits (c :: cs) = (readUnits cs).map fun p => (c.toNat :: p.1, p.2) := by
  rw [readUnits]
  · rw [if_neg (by omega)]
    cases readUnits cs <;> rfl
  -- The other clauses are about a quote or a backslash.
  · exact hquote
  · rintro a b d e rest rfl
    exact fun _ => hslash rfl
  · rintro d rest rfl
    exact fun _ => hslash rfl

theorem readUnits_simple {unit : Nat} (h : simpleEscape c = some unit) (cs : List Char) :
    readUnits ('\\' :: c :: cs) = (readUnits cs).map fun p => (unit :: p.1, p.2) := by
  have hu : c ≠ 'u' := by
    rintro rfl
    have hnone : simpleEscape 'u' = none := by decide
    simp [hnone] at h
  rw [readUnits]
  · rw [h]
    cases readUnits cs <;> rfl
  · intro a b d e rest heq
    exact absurd heq hu

theorem readUnits_unit {a b d : Char} {unit : Nat} (h : hexUnit a b c d = some unit)
    (cs : List Char) : readUnits ('\\' :: 'u' :: a :: b :: c :: d :: cs) =
      (readUnits cs).map fun p => (unit :: p.1, p.2) := by
  rw [readUnits, h]
  cases readUnits cs <;> rfl

theorem hexUnit_hexDigit :
    ∀ n < 32, hexUnit '0' '0' (hexDigit (n / 16)) (hexDigit (n % 16)) = some n := by
  decide

theorem readUnits_escape (c : Char) (cs : List Char) :
    readUnits (escape c ++ cs) = (readUnits cs).map fun p => (c.toNat :: p.1, p.2) := by
  have hshort : ∀ d : Char, simpleEscape d = some c.toNat →
      readUnits ('\\' :: d :: cs) = (readUnits cs).map fun p => (c.toNat :: p.1, p.2) :=
    fun d hd => readUnits_simple hd cs
  unfold escape
  -- One case for each line of the definition: the short escapes first.
  split_ifs with hquote hslash h8 h9 h10 h12 h13 h32
  · exact hshort '"' (by rw [hquote]; rfl)
  · exact hshort '\\' (by rw [hslash]; rfl)
  · exact hshort 'b' (by rw [h8]; rfl)
  · exact hshort 't' (by rw [h9]; rfl)
  · exact hshort 'n' (by rw [h10]; rfl)
  · exact hshort 'f' (by rw [h12]; rfl)
  · exact hshort 'r' (by rw [h13]; rfl)
  · exact readUnits_unit (hexUnit_hexDigit c.toNat h32) cs
  · exact readUnits_cons hquote hslash (by omega) cs

theorem readUnits_quoted (cs rest : List Char) :
    readUnits (cs.flatMap escape ++ '"' :: rest) = some (cs.map Char.toNat, rest) := by
  induction cs with
  | nil => rw [flatMap_nil, nil_append, readUnits, map_nil]
  | cons c cs ih =>
    rw [flatMap_cons, append_assoc, readUnits_escape, ih, map_cons]
    rfl

theorem isHigh_toNat (c : Char) : isHigh c.toNat = false ∧ isLow c.toNat = false := by
  have hvalid := c.valid
  unfold isHigh isLow
  simp only [Bool.and_eq_false_iff, decide_eq_false_iff_not]
  unfold UInt32.isValidChar Nat.isValidChar at hvalid
  unfold Char.toNat
  omega

theorem charsOfUnits_toNat (cs : List Char) : charsOfUnits (cs.map Char.toNat) = some cs := by
  induction cs with
  | nil => rfl
  | cons c cs ih =>
    cases cs with
    | nil =>
      rw [map_cons, map_nil, charsOfUnits, (isHigh_toNat c).1, (isHigh_toNat c).2]
      simp
    | cons d ds =>
      rw [map_cons] at ih
      rw [map_cons, map_cons, charsOfUnits, (isHigh_toNat c).1, (isHigh_toNat c).2, ih]
      simp

theorem textOfUnits_toNat (s : String) : textOfUnits (s.toList.map Char.toNat) = some s := by
  rw [textOfUnits, charsOfUnits_toNat]
  simp

/-! ## Numbers -/

/-- No number goes on with these characters. -/
def Stops (cs : List Char) : Prop :=
  ∀ c rest, cs = c :: rest → isDigit c = false ∧ c ≠ '.' ∧ c ≠ 'e' ∧ c ≠ 'E'

theorem stops_nil : Stops [] := by
  intro c rest h
  simp at h

theorem stops_cons {c : Char} (h : c ∈ [',', ']', '\x7d']) (cs : List Char) : Stops (c :: cs) := by
  have hcases : c = ',' ∨ c = ']' ∨ c = '\x7d' := by simpa using h
  intro d rest heq
  rw [List.cons.injEq] at heq
  rw [← heq.1]
  rcases hcases with rfl | rfl | rfl <;> decide

theorem isDigit_of_mem_toDigits {n : Nat} (h : c ∈ Nat.toDigits 10 n) : isDigit c = true := by
  have hd := Nat.isDigit_of_mem_toDigits (by decide) (by decide) h
  unfold Char.isDigit at hd
  unfold isDigit
  rw [Bool.and_eq_true, decide_eq_true_iff, decide_eq_true_iff] at hd ⊢
  exact hd

theorem takeWhile_of_stops (h : Stops cs) :
    cs.takeWhile isDigit = [] ∧ cs.dropWhile isDigit = cs := by
  cases cs with
  | nil => exact ⟨rfl, rfl⟩
  | cons c cs =>
    have hc := (h c cs rfl).1
    exact ⟨takeWhile_cons_of_neg (by simp [hc]), dropWhile_cons_of_neg (by simp [hc])⟩

theorem readDigits_toDigits (n : Nat) (hrest : Stops rest) :
    readDigits (Nat.toDigits 10 n ++ rest) = some (Nat.toDigits 10 n, rest) := by
  have hdigits : ∀ c ∈ Nat.toDigits 10 n, isDigit c = true := fun c hc => isDigit_of_mem_toDigits hc
  have hne : (Nat.toDigits 10 n).isEmpty = false := by
    rw [isEmpty_eq_false_iff]
    exact Nat.toDigits_ne_nil
  unfold readDigits
  rw [takeWhile_append_of_pos hdigits, dropWhile_append_of_pos hdigits,
    (takeWhile_of_stops hrest).1, (takeWhile_of_stops hrest).2, append_nil]
  simp [hne]

theorem readFraction_of_stops (h : Stops cs) : readFraction cs = some ([], cs) := by
  rw [readFraction]
  rintro rest rfl
  exact (h '.' rest rfl).2.1 rfl

theorem readExponent_of_stops (h : Stops cs) : readExponent cs = some ([], cs) := by
  cases cs with
  | nil => rw [readExponent]
  | cons c cs =>
    rcases (h c cs rfl).2.2 with ⟨he, hE⟩
    rw [readExponent, if_neg (by simp [he, hE])]

theorem head_toDigits (n : Nat) (hn : 0 < n) : (Nat.toDigits 10 n).head? ≠ some '0' := by
  induction n using Nat.strongRecOn with
  | ind n ih =>
    by_cases hlt : n < 10
    · have hdigit : ∀ m < 10, 0 < m → [m.digitChar].head? ≠ some '0' := by decide
      rw [Nat.toDigits_of_lt_base hlt]
      exact hdigit n hlt hn
    · have hdiv : 0 < n / 10 := by omega
      have hhead := ih (n / 10) (by omega) hdiv
      rw [Nat.toDigits_of_base_le (by omega) (by omega)]
      rwa [head?_append_of_ne_nil _ Nat.toDigits_ne_nil]

theorem zeros_toDigits (n : Nat) :
    (1 < (Nat.toDigits 10 n).length && (Nat.toDigits 10 n).head? == some '0') = false := by
  by_cases hn : 0 < n
  · simp [head_toDigits n hn]
  · have hzero : n = 0 := by omega
    rw [hzero]
    decide

theorem digitsValue_toDigits (n : Nat) : digitsValue (Nat.toDigits 10 n) = n :=
  Nat.ofDigitChars_toDigits (by decide) (by decide)

theorem readNumber_neg {n : Nat} (hn : 0 < n) (hrest : Stops rest) :
    readNumber ('-' :: (Nat.toDigits 10 n ++ rest)) = some (.int (-(n : Int)), rest) := by
  have hne : ¬ n = 0 := by omega
  simp only [readNumber, readDigits_toDigits n hrest, Option.bind_eq_bind, Option.bind_some,
    zeros_toDigits, readFraction_of_stops hrest, readExponent_of_stops hrest,
    digitsValue_toDigits]
  simp [hne]

theorem ne_of_isDigit {d : Char} (hc : isDigit c = true) (hd : isDigit d = false) : c ≠ d := by
  rintro rfl
  rw [hc] at hd
  exact absurd hd (by decide)

theorem exists_toDigits_eq_cons (n : Nat) :
    ∃ d ds, Nat.toDigits 10 n = d :: ds ∧ isDigit d = true := by
  cases hn : Nat.toDigits 10 n with
  | nil => exact absurd hn Nat.toDigits_ne_nil
  | cons d ds => exact ⟨d, ds, rfl, isDigit_of_mem_toDigits (by rw [hn]; exact mem_cons_self)⟩

theorem readNumber_toDigits (n : Nat) (hrest : Stops rest) :
    readNumber (Nat.toDigits 10 n ++ rest) = some (.int n, rest) := by
  have hsign : ∀ cs, Nat.toDigits 10 n ++ rest ≠ '-' :: cs := by
    rcases exists_toDigits_eq_cons n with ⟨d, ds, hds, hd⟩
    intro cs heq
    rw [hds, cons_append, List.cons.injEq] at heq
    exact ne_of_isDigit hd (by decide) heq.1
  unfold readNumber
  split
  next negative unsigned heq =>
    split at heq
    · next cs hcs => exact absurd hcs (hsign cs)
    · rw [Prod.mk.injEq] at heq
      rw [← heq.1, ← heq.2]
      simp only [readDigits_toDigits n hrest, Option.bind_eq_bind, Option.bind_some,
        zeros_toDigits, readFraction_of_stops hrest, readExponent_of_stops hrest,
        digitsValue_toDigits]
      simp

theorem readNumber_toString (n : Int) (hrest : Stops rest) :
    readNumber ((toString n).toList ++ rest) = some (.int n, rest) := by
  rw [Int.toString_eq_repr]
  unfold Int.repr
  cases n with
  | ofNat m =>
    rw [Nat.toList_repr]
    exact readNumber_toDigits m hrest
  | negSucc m =>
    rw [String.toList_append, Nat.toList_repr]
    exact readNumber_neg m.succ_pos hrest

/-! ## Words -/

/-- The text has these words, and no more units are needed than it has characters. -/
def Lexes (cs : List Char) (ts : List Token) : Prop :=
  ∀ fuel, cs.length < fuel → lexWithin fuel cs = some ts

/-- The piece of text makes up the words, whatever is behind it. -/
def Spells (cs : List Char) (ts : List Token) : Prop :=
  ∀ rest us, Stops rest → Lexes rest us → Lexes (cs ++ rest) (ts ++ us)

theorem lexes_nil : Lexes [] [] := by
  intro fuel hfuel
  cases fuel with
  | zero => omega
  | succ fuel => rw [lexWithin]

theorem lex_of_spells {ts : List Token} (h : Spells cs ts) : lex cs = some ts := by
  have hlexes := h [] [] stops_nil lexes_nil
  rw [append_nil, append_nil] at hlexes
  exact hlexes (cs.length + 1) (by omega)

theorem Lexes.word {t : Token} (h : Lexes rest us) (hlen : rest.length < cs.length)
    (hword : ∀ fuel, lexWithin (fuel + 1) cs = (t :: ·) <$> lexWithin fuel rest) :
    Lexes cs (t :: us) := by
  intro fuel hfuel
  cases fuel with
  | zero => omega
  | succ fuel =>
    rw [hword, h fuel (by omega)]
    rfl

/-- The words that are a single character. -/
def marks : List (Char × Token) :=
  [('\x7b', openBrace), ('\x7d', closeBrace), ('[', openBracket), (']', closeBracket), (':', colon),
    (',', comma)]

theorem Lexes.mark {t : Token} (ht : (c, t) ∈ marks) (h : Lexes rest us) :
    Lexes (c :: rest) (t :: us) := by
  refine h.word (Nat.lt_succ_self _) fun fuel => ?_
  simp only [marks, mem_cons, not_mem_nil, or_false, Prod.mk.injEq] at ht
  rcases ht with ⟨rfl, rfl⟩ | ⟨rfl, rfl⟩ | ⟨rfl, rfl⟩ | ⟨rfl, rfl⟩ | ⟨rfl, rfl⟩ | ⟨rfl, rfl⟩ <;>
    rw [lexWithin]

theorem Lexes.quote (h : Lexes rest us) (s : String) :
    Lexes ((quote s).toList ++ rest) (.scalar (.text s) :: us) := by
  have htext : (Json.quote s).toList ++ rest = '"' :: (s.toList.flatMap escape ++ '"' :: rest) := by
    simp [Json.quote]
  rw [htext]
  refine h.word (by simp; omega) fun fuel => ?_
  rw [lexWithin, readUnits_quoted]
  simp only [Option.bind_eq_bind, Option.bind_some, textOfUnits_toNat]
  rfl

theorem spells_keyword {w : String} {j : Json}
    (hw : (w, j) ∈ [("null", .null), ("true", .bool true), ("false", .bool false)]) :
    Spells w.toList [.scalar j] := by
  simp only [mem_cons, not_mem_nil, or_false, Prod.mk.injEq] at hw
  intro rest us _ h
  rcases hw with ⟨rfl, rfl⟩ | ⟨rfl, rfl⟩ | ⟨rfl, rfl⟩ <;>
    exact h.word (by simp; omega) fun fuel => by simp [lexWithin]

theorem lexWithin_number (hc : isDigit c = true ∨ c = '-') (fuel : Nat) (cs : List Char) :
    lexWithin (fuel + 1) (c :: cs) =
      readNumber (c :: cs) >>= fun p => (scalar p.1 :: ·) <$> lexWithin fuel p.2 := by
  have hne : ∀ d, isDigit d = false → d ≠ '-' → c ≠ d := by
    intro d hd hminus
    rcases hc with hc | hc
    · exact ne_of_isDigit hc hd
    · exact fun heq => hminus (heq.symm.trans hc)
  have hspace : isSpace c = false := by
    unfold isSpace
    simp [hne ' ' (by decide) (by decide), hne '\t' (by decide) (by decide),
      hne '\n' (by decide) (by decide), hne '\r' (by decide) (by decide)]
  rw [lexWithin]
  · rw [hspace]
    rfl
  -- All other words start with a character of their own.
  all_goals
    intros
    subst_vars
    exact hne _ (by decide) (by decide) rfl

theorem exists_toString_eq (n : Int) :
    ∃ c cs, (toString n).toList = c :: cs ∧ (isDigit c = true ∨ c = '-') := by
  rw [Int.toString_eq_repr]
  unfold Int.repr
  cases n with
  | ofNat m =>
    rcases exists_toDigits_eq_cons m with ⟨d, ds, hds, hd⟩
    exact ⟨d, ds, by rw [Nat.toList_repr, hds], Or.inl hd⟩
  | negSucc m => exact ⟨'-', m.succ.repr.toList, by rw [String.toList_append]; rfl, Or.inr rfl⟩

theorem spells_int (n : Int) : Spells (toString n).toList [.scalar (.int n)] := by
  intro rest us hrest h
  have hread := readNumber_toString n hrest
  rcases exists_toString_eq n with ⟨c, cs, htext, hc⟩
  rw [htext, cons_append] at hread ⊢
  refine h.word (by rw [length_cons, length_append]; omega) fun fuel => ?_
  rewrite [lexWithin_number hc, hread]
  rfl

theorem spells_intercalate {css : List (List Char)} {tss : List (List Token)}
    (h : Forall₂ Spells css tss) :
    Spells ([','].intercalate css) ([comma].intercalate tss) := by
  induction h with
  | nil => exact fun rest us _ hus => hus
  | cons hcs hrest ih =>
    cases hrest with
    | nil =>
      rw [intercalate_singleton, intercalate_singleton]
      exact hcs
    | cons =>
      intro rest us hstop hus
      rw [intercalate_cons_cons, intercalate_cons_cons, append_assoc,
        append_assoc, append_assoc, append_assoc]
      exact hcs _ _ (stops_cons (by decide) _) ((ih rest us hstop hus).mark (by simp [marks]))

end Token

/-! ## Values -/

mutual

/-- The words of a value. -/
def words : Json → List Token
  | arr items => .openBracket :: ([.comma].intercalate (itemWords items) ++ [.closeBracket])
  | obj members => .openBrace :: ([.comma].intercalate (memberWords members) ++ [.closeBrace])
  | j => [.scalar j]

/-- The words of each item of an array. -/
def itemWords : List Json → List (List Token)
  | [] => []
  | j :: js => words j :: itemWords js

/-- The words of each member of an object. -/
def memberWords : List (Option String × Json) → List (List Token)
  | [] => []
  | (k, j) :: ms => (.scalar (.str k) :: .colon :: words j) :: memberWords ms

end

open Token

theorem compactItems_eq_map (js : List Json) : compactItems js = js.map compact := by
  induction js with
  | nil => rw [compactItems, map_nil]
  | cons j js ih => rw [compactItems, ih, map_cons]

theorem compactMembers_eq_map (ms : List (Option String × Json)) :
    compactMembers ms = ms.map fun m => literal m.1 ++ ":" ++ compact m.2 := by
  induction ms with
  | nil => rw [compactMembers, map_nil]
  | cons m ms ih => rw [compactMembers, ih, map_cons]

theorem itemWords_eq_map (js : List Json) : itemWords js = js.map words := by
  induction js with
  | nil => rw [itemWords, map_nil]
  | cons j js ih => rw [itemWords, ih, map_cons]

theorem memberWords_eq_map (ms : List (Option String × Json)) :
    memberWords ms = ms.map fun m => .scalar (.str m.1) :: .colon :: words m.2 := by
  induction ms with
  | nil => rw [memberWords, map_nil]
  | cons m ms ih => rw [memberWords, ih, map_cons]

theorem spells_bracketed {opening closing : Char} {first last : Token}
    (hfirst : (opening, first) ∈ marks) (hlast : (closing, last) ∈ marks)
    (hstop : closing ∈ [',', ']', '\x7d']) {css : List (List Char)} {tss : List (List Token)}
    (h : Forall₂ Spells css tss) :
    Spells (opening :: ([','].intercalate css ++ [closing]))
      (first :: ([comma].intercalate tss ++ [last])) := by
  intro rest us _ hus
  rw [cons_append, cons_append, append_assoc, append_assoc]
  exact ((spells_intercalate h) _ _ (stops_cons hstop _) (hus.mark hlast)).mark hfirst

variable {j : Json}

theorem spells_compact (h : Plain j) : Spells j.compact.toList j.words := by
  induction h with
  | null => exact spells_keyword (w := "null") (by simp)
  | bool b =>
    cases b with
    | true => exact spells_keyword (w := "true") (by simp)
    | false => exact spells_keyword (w := "false") (by simp)
  | int n => exact spells_int n
  | text s => exact fun rest us _ hus => hus.quote s
  | @arr items _ ih =>
    have htext : (compact (.arr items)).toList =
        '[' :: ([','].intercalate (items.map fun j => j.compact.toList) ++ [']']) := by
      simp [compact, compactItems_eq_map, String.toList_intercalate, Function.comp_def]
    rw [htext, words, itemWords_eq_map]
    refine spells_bracketed (by simp [marks]) (by simp [marks]) (by decide) ?_
    rw [forall₂_map_left_iff, forall₂_map_right_iff, forall₂_same]
    exact ih
  | @record members _ ih =>
    have htext : (compact (record members)).toList =
        '\x7b' :: ([','].intercalate (members.map fun m =>
          (quote m.1).toList ++ ':' :: m.2.compact.toList) ++ ['\x7d']) := by
      simp [record, compact, compactMembers_eq_map, String.toList_intercalate, literal,
        Function.comp_def]
    rw [htext, record, words, memberWords_eq_map, map_map]
    refine spells_bracketed (by simp [marks]) (by simp [marks]) (by decide) ?_
    rw [forall₂_map_left_iff, forall₂_map_right_iff, forall₂_same]
    -- A key is a string literal, which needs nothing of what is behind it.
    intro m hm rest us hstop hus
    rw [append_assoc]
    exact ((ih m hm rest us hstop hus).mark (by simp [marks])).quote m.1

/-- Any number of units that is enough for the words of the value is enough to read
    it. -/
def Reads (j : Json) : Prop :=
  ∀ fuel rest, 2 * j.words.length ≤ fuel → readValue fuel (j.words ++ rest) = some (j, rest)

theorem reads_scalar (h : j.words = [.scalar j]) : Reads j := by
  intro fuel rest hfuel
  rw [h] at hfuel ⊢
  cases fuel with
  | zero => simp at hfuel
  | succ fuel =>
    rw [cons_append, readValue]
    rfl

section Lists

variable {α : Type} {spell : α → List Token} {close : Token} {as : List α}

theorem read_intercalate (f : Nat → List Token → Option (List α × List Token)) (close : Token)
    (hne : as ≠ [])
    (hlast : ∀ a ∈ as, ∀ fuel rest, 2 * (spell a).length ≤ fuel →
      f (fuel + 1) (spell a ++ close :: rest) = some ([a], rest))
    (hmore : ∀ a ∈ as, ∀ fuel rest bs rest', 2 * (spell a).length ≤ fuel →
      f fuel rest = some (bs, rest') →
      f (fuel + 1) (spell a ++ comma :: rest) = some (a :: bs, rest')) :
    ∀ fuel rest, 2 * ([comma].intercalate (as.map spell)).length < fuel →
      f fuel ([comma].intercalate (as.map spell) ++ close :: rest) = some (as, rest) := by
  induction as with
  | nil => exact absurd rfl hne
  | cons a as ih =>
    intro fuel rest hfuel
    cases fuel with
    | zero => omega
    | succ fuel =>
      cases as with
      | nil =>
        rw [map_cons, map_nil, intercalate_singleton] at hfuel ⊢
        exact hlast a mem_cons_self fuel rest (by omega)
      | cons b bs =>
        rw [map_cons, map_cons, intercalate_cons_cons, ← map_cons] at hfuel ⊢
        rw [length_append, length_append, length_singleton] at hfuel
        rw [append_assoc, append_assoc]
        refine hmore a mem_cons_self fuel _ _ _ (by omega) ?_
        exact ih (cons_ne_nil b bs) (fun c hc => hlast c (mem_cons_of_mem a hc))
          (fun c hc => hmore c (mem_cons_of_mem a hc)) fuel rest (by omega)

theorem intercalate_ne_close (hne : as ≠ []) (h : ∀ a ∈ as, ∀ rest us, spell a ++ rest ≠ close :: us)
    (rest us : List Token) : [comma].intercalate (as.map spell) ++ rest ≠ close :: us := by
  match as, hne with
  | [a], _ => simpa using h a (by simp) rest us
  | a :: b :: bs, _ =>
    rw [map_cons, map_cons, intercalate_cons_cons, append_assoc,
      append_assoc]
    exact h a (by simp) _ us

end Lists

theorem reads_arr {items : List Json} (h : ∀ j ∈ items, Reads j) : Reads (.arr items) := by
  intro fuel rest hfuel
  rw [words, itemWords_eq_map] at hfuel ⊢
  rw [length_cons, length_append, length_singleton] at hfuel
  rw [cons_append, append_assoc, cons_append, nil_append]
  cases fuel with
  | zero => omega
  | succ fuel =>
    by_cases hne : items = []
    · rw [hne, map_nil, intercalate_nil, nil_append, readValue]
    · have hitems := read_intercalate readItems closeBracket hne
        (fun j hj fuel rest hfuel => by rw [readItems, h j hj fuel _ hfuel]; rfl)
        (fun j hj fuel rest bs rest' hfuel hrest => by
          rw [readItems, h j hj fuel _ hfuel]
          simp [hrest]) fuel rest (by omega)
      rw [readValue]
      · rw [hitems]
        rfl
      · refine fun us => intercalate_ne_close hne (fun j _ rest us => ?_) _ us
        cases j <;> simp [words]

theorem reads_obj {members : List (Option String × Json)} (h : ∀ m ∈ members, Reads m.2) :
    Reads (.obj members) := by
  intro fuel rest hfuel
  rw [words, memberWords_eq_map] at hfuel ⊢
  rw [length_cons, length_append, length_singleton] at hfuel
  rw [cons_append, append_assoc, cons_append, nil_append]
  cases fuel with
  | zero => omega
  | succ fuel =>
    by_cases hne : members = []
    · rw [hne, map_nil, intercalate_nil, nil_append, readValue]
    · have hmembers := read_intercalate readMembers closeBrace hne
        (fun m hm fuel rest hfuel => by
          rw [length_cons, length_cons] at hfuel
          rw [cons_append, cons_append, readMembers, h m hm fuel _ (by omega)]
          rfl)
        (fun m hm fuel rest bs rest' hfuel hrest => by
          rw [length_cons, length_cons] at hfuel
          rw [cons_append, cons_append, readMembers, h m hm fuel _ (by omega)]
          simp [hrest]) fuel rest (by omega)
      rw [readValue]
      · rw [hmembers]
        rfl
      · exact fun us => intercalate_ne_close hne (by simp) _ us

theorem readValue_words (h : Plain j) : Reads j := by
  induction h with
  | null | bool b | int n | text s => exact reads_scalar rfl
  | arr _ ih => exact reads_arr ih
  | record _ ih =>
    refine reads_obj fun m hm => ?_
    rcases mem_map.mp hm with ⟨k, hk, rfl⟩
    exact ih k hk

/-- A value is read back from the words it is made of. -/
theorem parse?_compact (h : Plain j) : parse? j.compact = some j := by
  have hread := readValue_words h (2 * j.words.length + 2) [] (by omega)
  rw [append_nil] at hread
  unfold parse? ofTokens
  rw [lex_of_spells (spells_compact h)]
  simp only [Option.bind_eq_bind, Option.bind_some, hread]

end Json

end Vouch
