import Vouch.Proofs.Term.Text

/-!
# S-Expressions

A text is cut into parentheses and words, and then the parentheses are matched up. A
text is cut into the same pieces wherever it stands, as long as no letters follow it
directly. So a text can be described by its pieces, put together like the text is, and
all that is left to know of it is which s-expression has these pieces.

## Main definitions

* `Sexp.read`: The s-expression that a text is.
* `Tokenizes`: A text has pieces wherever it stands.

## Theorems

* `Sexp.read_of_tokenizes`: A text with the pieces of an s-expression is read as it.
* `tokenizes_applied`: The pieces of an application.
-/

namespace Vouch

open List hiding lex

/-- The pieces of a text. -/
inductive Token where
  | opening
  | closing
  | word (w : String)

namespace Token

/-- The letters of a word, if there are any. -/
def flush (letters : List Char) : List Token :=
  if letters.isEmpty then [] else [word (String.ofList letters)]

/-- The pieces of a text, given the letters that were read of a word. -/
def lex (letters : List Char) : List Char → List Token
  | [] => flush letters
  | c :: cs =>
    if c = '(' then flush letters ++ opening :: lex [] cs
    else if c = ')' then flush letters ++ closing :: lex [] cs
    else if c.isWhitespace then flush letters ++ lex [] cs
    else lex (letters ++ [c]) cs

/-- Words end at the character. -/
def separates (c : Char) : Bool :=
  c == '(' || c == ')' || c.isWhitespace

/-- No letters follow. -/
def Stops (cs : List Char) : Prop :=
  ∀ c ∈ cs.head?, separates c = true

theorem lex_append {w : List Char} (hw : ∀ c ∈ w, separates c = false) :
    ∀ (letters cs : List Char), lex letters (w ++ cs) = lex (letters ++ w) cs := by
  induction w with
  | nil => simp
  | cons c w ih =>
    intro letters cs
    have hc : separates c = false := hw c mem_cons_self
    simp only [separates, Bool.or_eq_false_iff, beq_eq_false_iff_ne] at hc
    rw [cons_append, lex, if_neg hc.1.1, if_neg hc.1.2, if_neg (by simp [hc.2]),
      ih ((forall_mem_cons.mp hw).2), append_assoc, singleton_append]

theorem lex_of_stops {cs : List Char} (hcs : Stops cs) (letters : List Char) :
    lex letters cs = flush letters ++ lex [] cs := by
  cases cs with
  | nil => simp [lex, flush]
  | cons c cs =>
    have hc : separates c = true := hcs c (by simp)
    simp only [separates, Bool.or_eq_true, beq_iff_eq] at hc
    unfold lex
    rcases hc with (rfl | rfl) | hc
    · simp [flush]
    · simp [flush]
    · by_cases hopen : c = '('
      · simp [hopen, flush]
      · by_cases hclose : c = ')'
        · simp [hclose, flush]
        · simp [hopen, hclose, hc, flush]

end Token

/-- Words, and lists of s-expressions. -/
inductive Sexp where
  | atom (w : String)
  | list (es : List Sexp)

namespace Sexp

mutual

/-- The pieces of an s-expression. -/
def tokens : Sexp → List Token
  | atom w => [.word w]
  | list es => .opening :: (tokensAll es ++ [.closing])

/-- The pieces of a list of s-expressions. -/
def tokensAll : List Sexp → List Token
  | [] => []
  | e :: es => tokens e ++ tokensAll es

end

/-- Match up parentheses. What was read of the innermost list comes last item first,
    and so do the lists around it. -/
def gather : List Token → List Sexp → List (List Sexp) → Option (List Sexp)
  | [], done, [] => some done.reverse
  | [], _, _ :: _ => none
  | .word w :: ts, done, outer => gather ts (atom w :: done) outer
  | .opening :: ts, done, outer => gather ts [] (done :: outer)
  | .closing :: _, _, [] => none
  | .closing :: ts, done, inner :: outer => gather ts (list done.reverse :: inner) outer

/-- The s-expression that the text is, if it is one and no more. -/
def read (s : String) : Option Sexp :=
  match gather (Token.lex [] s.toList) [] [] with
  | some [e] => some e
  | _ => none

theorem tokensAll_eq_flatMap (es : List Sexp) : tokensAll es = es.flatMap tokens := by
  induction es with
  | nil => rw [tokensAll, flatMap_nil]
  | cons e es ih => rw [tokensAll, ih, flatMap_cons]

mutual

theorem gather_tokens : ∀ (e : Sexp) (ts : List Token) (done : List Sexp)
    (outer : List (List Sexp)), gather (e.tokens ++ ts) done outer = gather ts (e :: done) outer
  | .atom w, ts, done, outer => by
    rw [tokens, singleton_append, gather]
  | .list es, ts, done, outer => by
    rw [tokens, cons_append, append_assoc, singleton_append, gather,
      gather_tokensAll es, append_nil, gather, reverse_reverse]

theorem gather_tokensAll : ∀ (es : List Sexp) (ts : List Token) (done : List Sexp)
    (outer : List (List Sexp)),
    gather (tokensAll es ++ ts) done outer = gather ts (es.reverse ++ done) outer
  | [], ts, done, outer => by
    rw [tokensAll, nil_append, reverse_nil, nil_append]
  | e :: es, ts, done, outer => by
    rw [tokensAll, append_assoc, gather_tokens e, gather_tokensAll es,
      reverse_cons, append_assoc, singleton_append]

end

end Sexp

/-- The text is on one line and has these pieces wherever it stands, if no letters
    follow. -/
structure Tokenizes (s : String) (ts : List Token) : Prop where
  line : ∀ c ∈ s.toList, c.isWhitespace = true → c = ' '
  pieces : ∀ rest, Token.Stops rest → Token.lex [] (s.toList ++ rest) = ts ++ Token.lex [] rest

theorem Sexp.read_of_tokenizes {s : String} {e : Sexp} (h : Tokenizes s e.tokens) :
    read s = some e := by
  have hlex : Token.lex [] s.toList = e.tokens := by
    simpa [Token.lex, Token.flush] using h.pieces [] (by simp [Token.Stops])
  have hgather : gather e.tokens [] [] = some [e] := by
    simpa [gather] using gather_tokens e [] [] []
  rw [read, hlex, hgather]

/-- Words have letters and no parentheses or white space. -/
structure IsWord (w : String) : Prop where
  ne_empty : w ≠ ""
  letters : ∀ c ∈ w.toList, Token.separates c = false

section Texts

open Token

theorem tokenizes_word {w : String} (hw : IsWord w) : Tokenizes w [.word w] := by
  refine ⟨fun c hc hspace => ?_, fun rest hrest => ?_⟩
  · have hletter := hw.letters c hc
    simp [separates, hspace] at hletter
  · have hne : w.toList ≠ [] := by simpa using hw.ne_empty
    rw [lex_append hw.letters, nil_append, lex_of_stops hrest, flush,
      if_neg (by simpa using hne), String.ofList_toList]

theorem Tokenizes.blank {s s' : String} {ts ts' : List Token} (h : Tokenizes s ts)
    (h' : Tokenizes s' ts') : Tokenizes (s ++ " " ++ s') (ts ++ ts') := by
  refine ⟨fun c hc hspace => ?_, fun rest hrest => ?_⟩
  · simp only [String.toList_append, mem_append] at hc
    rcases hc with (hc | hc) | hc
    · exact h.line c hc hspace
    · simpa using hc
    · exact h'.line c hc hspace
  · have hblank : Stops (' ' :: (s'.toList ++ rest)) := by simp [Stops, separates]
    have hskip : ∀ cs, lex [] (' ' :: cs) = lex [] cs := by simp [lex, flush]
    have htext : (s ++ " " ++ s').toList ++ rest = s.toList ++ ' ' :: (s'.toList ++ rest) := by
      simp
    rw [htext, h.pieces _ hblank, hskip, h'.pieces rest hrest, append_assoc]

theorem Tokenizes.parens {s : String} {ts : List Token} (h : Tokenizes s ts) :
    Tokenizes ("(" ++ s ++ ")") (.opening :: (ts ++ [.closing])) := by
  refine ⟨fun c hc hspace => ?_, fun rest _ => ?_⟩
  · simp only [String.toList_append, mem_append] at hc
    rcases hc with (hc | hc) | hc
    · have hparen : c = '(' := by simpa using hc
      subst hparen
      exact absurd hspace (by decide)
    · exact h.line c hc hspace
    · have hparen : c = ')' := by simpa using hc
      subst hparen
      exact absurd hspace (by decide)
  · have hclose : Stops (')' :: rest) := by simp [Stops, separates]
    have htext : ("(" ++ s ++ ")").toList ++ rest = '(' :: (s.toList ++ ')' :: rest) := by simp
    rw [htext, lex, if_pos rfl, h.pieces _ hclose]
    simp [lex, flush]

theorem tokenizes_spaced : ∀ {items : List String} {tss : List (List Token)},
    Forall₂ Tokenizes items tss → Tokenizes (Term.spaced items) tss.flatten
  | _, _, .nil => ⟨by simp [Term.spaced], by simp [Term.spaced]⟩
  | [_], [_], .cons h .nil => by
    simpa [Term.spaced] using h
  | s :: s' :: items, ts :: ts' :: tss, .cons h (.cons h' hs) => by
    have htext : Term.spaced (s :: s' :: items) = s ++ " " ++ Term.spaced (s' :: items) := by
      apply String.toList_inj.mp
      simp [Term.spaced, String.toList_intercalate]
    rw [htext, flatten_cons]
    exact h.blank (tokenizes_spaced (.cons h' hs))

theorem tokenizes_applied {symbol : String} {items : List String} {tss : List (List Token)}
    (hsymbol : IsWord symbol) (h : Forall₂ Tokenizes items tss) :
    Tokenizes (Term.applied symbol items)
      (.opening :: (.word symbol :: (tss.flatten ++ [.closing]))) :=
  (tokenizes_spaced (.cons (tokenizes_word hsymbol) h)).parens

end Texts

end Vouch
