import Vouch.Proofs.Logic.Sense
import Vouch.Proofs.Term.Sexp

/-!
# Reading Terms Back

A text loses some of a term. Sorts are not printed, a negative number is printed like a
subtraction, an empty conjunction like a truth value, and the indices of a map operation
stand among its other operands.

## Main definitions

* `Sexp.sense`: What an s-expression means.
* `Lexicon`: Names and function symbols can be told apart.
* `Term.Neat`: A term is put together as terms are.

## Theorems

* `Term.Neat.exists_spells`: The text of a neat term has the sense of the term.
-/

namespace Vouch

open List Term

/-! ### Words -/

/-- The number that the word is. -/
def numeral? (w : String) : Option Nat :=
  let n := Nat.ofDigitChars 10 w.toList 0
  if toString n = w then some n else none

theorem numeral?_toString (n : Nat) : numeral? (toString n) = some n := by
  have hn : Nat.ofDigitChars 10 (toString n).toList 0 = n := by
    rw [Nat.toString_eq_repr, Nat.toList_repr, Nat.ofDigitChars_toDigits] <;> decide
  simp only [numeral?, hn, if_true]

variable {w : String} {op : Op}

theorem numeral?_eq_none (h : ∀ n : Nat, w ≠ toString n) : numeral? w = none :=
  if_neg fun hw => h _ hw.symm

/-- The number behind a word. -/
def numbered? (stem w : String) : Option Nat :=
  if stem.toList <+: w.toList then numeral? (String.ofList (w.toList.drop stem.toList.length))
  else none

theorem numbered?_append (stem : String) (n : Nat) :
    numbered? stem (stem ++ toString n) = some n := by
  rw [numbered?, String.toList_append, if_pos (prefix_append _ _), drop_left,
    String.ofList_toList, numeral?_toString]

theorem numbered?_eq_none {stem : String} (h : ∀ n : Nat, w ≠ stem ++ toString n) :
    numbered? stem w = none := by
  unfold numbered?
  split
  · next hstem =>
    rcases hstem with ⟨rest, hrest⟩
    refine numeral?_eq_none fun n hn => h n ?_
    apply String.toList_inj.mp
    rw [← hrest, drop_left] at hn
    rw [← hrest, String.toList_append, ← hn, String.toList_ofList]
  · rfl

/-- The truth values, as formulas and as values. -/
def truths : List (Bool × TermSort) :=
  [(true, .formula), (false, .formula), (true, .bool), (false, .bool)]

/-- The truth value that the word is. -/
def truth? (w : String) : Option (Bool × TermSort) :=
  truths.find? fun p => (Literal.bool p.1).text p.2 == w

/-- The operators that have a symbol of their own. -/
def symbolOps : List Op :=
  [.and, .or, .not, .implies, .iff, .eq, .neq, .distinct, .lt, .le, .tnand, .tlt, .teq, .teqInt,
    .teqBool, .add, .sub, .mul, .div, .mod]

/-- The operator with the symbol. All other symbols are those of functions. -/
def symbolOp (w : String) : Op :=
  (symbolOps.find? fun op => op.keyword == w).getD (.app w)

theorem symbolOp_keyword (h : op ∈ symbolOps) : symbolOp op.keyword = op := by
  revert op
  decide

/-- The word can be read as a name. -/
structure IsName (w : String) : Prop where
  word : IsWord w
  numeral : numeral? w = none
  truth : truth? w = none

/-- The word can be read as a function symbol. -/
structure IsSymbol (f : String) : Prop extends IsName f where
  operator : symbolOp f = .app f
  quantifier : f ≠ Op.keyword .all
  select : numbered? (Op.keyword .mapSelect) f = none
  update : numbered? (Op.keyword .mapUpdate) f = none

/-! ### What s-expressions mean -/

namespace Sexp

/-- What a word means, `F` being the functions. -/
def wordSense (F : String → Bool) (bound : List String) (w : String) : Sense :=
  match numeral? w, truth? w with
  | some n, _ => .literal false (.int n)
  | none, some p => .literal p.2.isFormula (.bool p.1)
  | none, none => if F w && !bound.contains w then .apply (.app w) 0 [] else .var w

/-- What a symbol means that is applied to operands. -/
def symbolSense (k : String) (ms : List Sense) : Sense :=
  match numbered? (Op.keyword .mapSelect) k, numbered? (Op.keyword .mapUpdate) k with
  | some n, _ => .apply .mapSelect n ms
  | none, some n => .apply .mapUpdate n ms
  | none, none => .apply (symbolOp k) 0 ms

/-- The word, if it is nothing but a word. -/
def word? : Sexp → Option String
  | atom w => some w
  | list _ => none

/-- The words in a list. -/
def words : Sexp → List String
  | atom _ => []
  | list es => es.filterMap word?

/-- What a list means. The first item is the symbol. A quantifier has the names that it
    binds in the second. -/
def listSense (es : List Sexp) (items : List (List String → Sense)) (bound : List String) : Sense :=
  let symbol := ((es.head?.bind word?).getD "")
  let names := ((es.tail.head?.map words).getD [])
  if symbol = Op.keyword .all then
    .quantify names (items.getLastD (fun _ => .var "") (names ++ bound))
  else symbolSense symbol (items.tail.map (· bound))

mutual

/-- What the s-expression means, with some names bound around it. -/
def sense (F : String → Bool) : Sexp → List String → Sense
  | atom w, bound => wordSense F bound w
  | list es, bound => listSense es (senses F es) bound

/-- What the s-expressions in a list mean. -/
def senses (F : String → Bool) : List Sexp → List (List String → Sense)
  | [] => []
  | e :: es => (fun bound => sense F e bound) :: senses F es

end

variable {F : String → Bool} {bound : List String}

theorem senses_eq_map (es : List Sexp) : senses F es = es.map (sense F) := by
  induction es with
  | nil => rw [senses, map_nil]
  | cons e es ih => rw [senses, ih, map_cons]

theorem sense_applied {k : String} (hk : k ≠ Op.keyword .all) (es : List Sexp) :
    (list (atom k :: es)).sense F bound = symbolSense k (es.map (·.sense F bound)) := by
  rw [sense, listSense, senses_eq_map]
  simp [word?, hk, Function.comp_def]

theorem sense_quantifier (names : List String) (b : Sexp) :
    (list [atom (Op.keyword .all), list (names.map atom), b]).sense F bound =
      .quantify names (b.sense F (names ++ bound)) := by
  rw [sense, listSense, senses_eq_map]
  simp [word?, words, filterMap_map, Function.comp_def]

theorem tokens_applied (k : String) (es : List Sexp) :
    (list (atom k :: es)).tokens =
      .opening :: (.word k :: ((es.map tokens).flatten ++ [.closing])) := by
  simp [tokens, tokensAll, tokensAll_eq_flatMap, flatMap_def]

theorem wordSense_name {n : String} (hn : IsName n) (h : n ∈ bound ∨ F n = false) :
    wordSense F bound n = .var n := by
  rw [wordSense, hn.numeral, hn.truth]
  rcases h with h | h
  · simp [h]
  · simp [h]

theorem wordSense_function {f : String} (hf : IsName f) (hF : F f = true) (h : f ∉ bound) :
    wordSense F bound f = .apply (.app f) 0 [] := by
  rw [wordSense, hf.numeral, hf.truth]
  simp [hF, h]

theorem wordSense_toString (n : Nat) :
    wordSense F bound (toString n) = .literal false (.int n) := by
  rw [wordSense, numeral?_toString]

theorem symbolSense_map (hop : op = .mapSelect ∨ op = .mapUpdate) (n : Nat) (ms : List Sense) :
    symbolSense (op.keyword ++ toString n) ms = .apply op n ms := by
  have hselect : numbered? (Op.keyword .mapSelect) (Op.keyword .mapUpdate ++ toString n) =
      none := by
    refine numbered?_eq_none fun k heq => ?_
    have hletter := congrArg (fun w => w.toList[4]?) heq
    simp [Op.keyword] at hletter
  rcases hop with rfl | rfl
  · rw [symbolSense, numbered?_append]
  · rw [symbolSense, hselect, numbered?_append]

end Sexp

/-! ### Words that are printed -/

instance (w : String) : Decidable (IsWord w) :=
  decidable_of_iff (w ≠ "" ∧ (w.toList.all fun c => !Token.separates c) = true)
    ⟨fun h => ⟨h.1, by simpa using h.2⟩, fun h => ⟨h.ne_empty, by simpa using h.letters⟩⟩

theorem separates_of_isDigit {c : Char} (h : c.isDigit = true) : Token.separates c = false := by
  by_contra hsep
  simp only [Token.separates, Char.isWhitespace, Bool.not_eq_false, Bool.or_eq_true, beq_iff_eq,
    decide_eq_true_eq] at hsep
  rcases hsep with (rfl | rfl) | ((rfl | rfl) | rfl) | rfl <;> exact absurd h (by decide)

theorem letters_toString (n : Nat) : ∀ c ∈ (toString n).toList, Token.separates c = false := by
  intro c hc
  rw [Nat.toString_eq_repr, Nat.toList_repr] at hc
  exact separates_of_isDigit (Nat.isDigit_of_mem_toDigits (by decide) (by decide) hc)

theorem isWord_toString (n : Nat) : IsWord (toString n) :=
  ⟨by simp, letters_toString n⟩

theorem IsWord.append {v : String} (hv : IsWord v)
    (hw : ∀ c ∈ w.toList, Token.separates c = false) : IsWord (v ++ w) := by
  refine ⟨fun h => hv.ne_empty ?_, fun c hc => ?_⟩
  · exact (String.append_eq_empty_iff.mp h).1
  · rw [String.toList_append, mem_append] at hc
    rcases hc with hc | hc
    · exact hv.letters c hc
    · exact hw c hc

/-- The operator is printed with a symbol of its own, or like one that is. -/
def Op.isPlain : Op → Bool
  | all | mapSelect | mapUpdate | tuple | app _ | var | lit => false
  | _ => true

theorem Op.ne_of_isPlain {op' : Op} (h : op.isPlain = true) (h' : op'.isPlain = false) :
    op ≠ op' := by
  rintro rfl
  rw [h] at h'
  cases h'

theorem Op.mem_symbolOps (h : op.isPlain = true) (hneg : op ≠ .neg) : op ∈ symbolOps := by
  cases op with
  | all | mapSelect | mapUpdate | tuple | app _ | var | lit => cases h
  | neg => exact absurd rfl hneg
  | _ => decide

theorem symbolSense_keyword (h : op ∈ symbolOps) (ms : List Sense) :
    IsWord op.keyword ∧ op.keyword ≠ Op.keyword .all ∧
      Sexp.symbolSense op.keyword ms = .apply op 0 ms := by
  have hcheck : ∀ op ∈ symbolOps, IsWord op.keyword ∧ op.keyword ≠ Op.keyword .all ∧
      numbered? (Op.keyword .mapSelect) op.keyword = none ∧
      numbered? (Op.keyword .mapUpdate) op.keyword = none := by
    decide +kernel
  rcases hcheck op h with ⟨hword, hall, hselect, hupdate⟩
  refine ⟨hword, hall, ?_⟩
  rw [Sexp.symbolSense, hselect, hupdate, symbolOp_keyword h]

/-! ### Terms that can be read back -/

/-- The names in `N` can be read as names and those in `G` as function symbols, `F` being
    the functions. -/
structure Lexicon (F : String → Bool) (N G : String → Prop) : Prop where
  name : ∀ n, N n → IsName n
  symbol : ∀ f, G f → IsSymbol f ∧ F f = true ∧ ¬ N f

namespace Term

/-- The term is put together as terms are, its names are in `N` and its function symbols
    in `G`. In particular a list of indices stands nowhere but in a map operation. -/
inductive Neat (N G : String → Prop) : Term → Prop
  | var {t : Term} {n : String} : t.name? = some n → t.children = [] → N n → Neat N G t
  | int {t : Term} {n : Int} : t.head = { op := .lit, sort := .int, payload := some (.int n) } →
      t.children = [] → Neat N G t
  | bool {t : Term} {b : Bool} {sort : TermSort} :
      t.head = { op := .lit, sort, payload := some (.bool b) } → t.children = [] → Neat N G t
  | plain {t : Term} : t.op.isPlain = true → (∀ c ∈ t.children, Neat N G c) → Neat N G t
  | call {t : Term} {f : String} : t.op = .app f → G f → (∀ c ∈ t.children, Neat N G c) → Neat N G t
  | select {t m i : Term} : t.op = .mapSelect → t.children = [m, i] → i.op = .tuple →
      Neat N G m → (∀ c ∈ i.children, Neat N G c) → Neat N G t
  | update {t m i v : Term} : t.op = .mapUpdate → t.children = [m, i, v] → i.op = .tuple →
      Neat N G m → (∀ c ∈ i.children, Neat N G c) → Neat N G v → Neat N G t
  | all {t b : Term} {vs : List Term} : t.op = .all → t.children = vs ++ [b] →
      (∀ v ∈ vs, ∃ n, v.name? = some n) → (∀ v ∈ vs, Neat N G v) → Neat N G b → Neat N G t

/-- The text of the term has the pieces of the s-expression, and they have one sense. -/
structure Spells (F : String → Bool) (bound : List String) (t : Term) (e : Sexp) : Prop where
  tokenizes : Tokenizes t.text e.tokens
  sense : t.sense = e.sense F bound

section Spells

variable {F : String → Bool} {bound : List String} {t : Term} {cs : List Term} {es : List Sexp}

theorem exists_spells_all (h : ∀ c ∈ cs, ∃ e, Spells F bound c e) :
    ∃ es, Forall₂ (Spells F bound) cs es := by
  induction cs with
  | nil => exact ⟨[], .nil⟩
  | cons c cs ih =>
    rcases h c mem_cons_self with ⟨e, he⟩
    rcases ih (forall_mem_cons.mp h).2 with ⟨es, hes⟩
    exact ⟨e :: es, .cons he hes⟩

theorem tokenizes_all (h : Forall₂ (Spells F bound) cs es) :
    Forall₂ Tokenizes (cs.map text) (es.map Sexp.tokens) := by
  rw [forall₂_map_left_iff, forall₂_map_right_iff]
  exact h.imp fun _ _ hce => hce.tokenizes

theorem sense_all (h : Forall₂ (Spells F bound) cs es) :
    cs.map sense = es.map (·.sense F bound) := by
  induction h with
  | nil => rfl
  | cons hce _ ih => rw [map_cons, map_cons, hce.sense, ih]

theorem spells_word {w : String} (hword : IsWord w) (htext : t.text = w)
    (hsense : t.sense = Sexp.wordSense F bound w) : Spells F bound t (.atom w) := by
  refine ⟨?_, ?_⟩
  · rw [htext, Sexp.tokens]
    exact tokenizes_word hword
  · rw [Sexp.sense, hsense]

theorem spells_applied {k : String} (hword : IsWord k) (hk : k ≠ Op.keyword .all)
    (htext : t.text = applied k (cs.map text)) (h : Forall₂ (Spells F bound) cs es)
    (hsense : t.sense = Sexp.symbolSense k (cs.map sense)) :
    Spells F bound t (.list (.atom k :: es)) := by
  refine ⟨?_, ?_⟩
  · rw [htext, Sexp.tokens_applied]
    exact tokenizes_applied hword (tokenizes_all h)
  · rw [Sexp.sense_applied hk, hsense, sense_all h]

variable {sort : TermSort} {vs : List Term}

theorem spells_bool (b : Bool) (sort : TermSort) (htext : t.text = (Literal.bool b).text sort)
    (hsense : t.sense = .literal sort.isFormula (.bool b)) : ∃ e, Spells F bound t e := by
  have hwords : ∀ p ∈ truths, IsWord ((Literal.bool p.1).text p.2) ∧
      numeral? ((Literal.bool p.1).text p.2) = none ∧
      truth? ((Literal.bool p.1).text p.2) = some p := by
    decide +kernel
  -- Sorts of values are all printed alike.
  obtain ⟨sort', hsort, hmem⟩ :
      ∃ sort', sort.isFormula = sort'.isFormula ∧ (b, sort') ∈ truths := by
    cases sort with
    | formula => exact ⟨.formula, rfl, by cases b <;> decide⟩
    | _ => exact ⟨.bool, rfl, by cases b <;> decide⟩
  have hsame : (Literal.bool b).text sort = (Literal.bool b).text sort' := by
    simp only [Literal.text, hsort]
  rcases hwords _ hmem with ⟨hword, hnumeral, htruth⟩
  refine ⟨_, spells_word hword (htext.trans hsame) ?_⟩
  rw [hsense, Sexp.wordSense, hnumeral, htruth, hsort]

theorem text_literal {l : Literal} (h : t.head = { op := .lit, sort, payload := some l }) :
    t.text = l.text sort := by
  obtain ⟨id, hd, cs, as⟩ := t
  change hd = _ at h
  subst h
  rw [text]
  rfl

theorem spells_minus (s : String) (es : List Sexp)
    (htext : t.text = "(" ++ ("-" ++ " " ++ ("0" ++ " " ++ s)) ++ ")")
    (hs : Tokenizes s (es.map Sexp.tokens).flatten)
    (hsense : t.sense = .apply .sub 0 (.literal false (.int 0) :: es.map (·.sense F bound))) :
    Spells F bound t (.list (.atom "-" :: .atom (toString 0) :: es)) := by
  have hminus : Op.keyword .sub ≠ Op.keyword .all := by decide
  have hzero : IsWord "0" := by decide
  have hsign : IsWord "-" := by decide
  refine ⟨?_, ?_⟩
  · rw [htext, Sexp.tokens_applied]
    exact ((tokenizes_word hsign).blank ((tokenizes_word hzero).blank hs)).parens
  · rw [show "-" = Op.keyword .sub from rfl, Sexp.sense_applied hminus,
      (symbolSense_keyword (by decide) _).2.2, map_cons, Sexp.sense, Sexp.wordSense_toString]
    exact hsense

theorem spells_int {n : Int} (h : t.head = { op := .lit, sort := .int, payload := some (.int n) })
    (hcs : t.children = []) : ∃ e, Spells F bound t e := by
  have hsense := sense_literal h hcs
  cases n with
  | ofNat n =>
    exact ⟨_, spells_word (isWord_toString n) (text_literal h)
      (hsense.trans (Sexp.wordSense_toString n).symm)⟩
  | negSucc n =>
    refine ⟨_, spells_minus (toString (n + 1)) [.atom (toString (n + 1))] ?_ ?_ ?_⟩
    · rw [text_literal h, Literal.text]
      apply String.toList_inj.mp
      simp
    · simpa [Sexp.tokens] using tokenizes_word (isWord_toString (n + 1))
    · rw [map_singleton, Sexp.sense, Sexp.wordSense_toString]
      exact hsense.trans (Sense.literal_neg (n + 1) 0)

theorem spells_plain (hop : t.op.isPlain = true)
    (hes : Forall₂ (Spells F bound) t.children es) : ∃ e, Spells F bound t e := by
  have htexts : texts t.children = t.children.map text := texts_eq_map _
  have hsense : t.sense = .apply t.op 0 (t.children.map sense) := by
    refine sense_operator (Op.ne_of_isPlain hop rfl) (Op.ne_of_isPlain hop rfl)
      (Op.ne_of_isPlain hop rfl) fun h => ?_
    exact (h.elim (Op.ne_of_isPlain hop rfl) (Op.ne_of_isPlain hop rfl)).elim
  by_cases hneg : t.op = .neg
  · refine ⟨_, spells_minus _ es ?_ (tokenizes_spaced (tokenizes_all hes)) ?_⟩
    · rw [← htexts]
      obtain ⟨id, ⟨op, sort, payload⟩, cs, as⟩ := t
      change op = .neg at hneg
      subst hneg
      rw [text]
      apply String.toList_inj.mp
      simp [children]
    · rw [hsense, hneg, Sense.apply_neg, sense_all hes]
  by_cases hempty : t.children = [] ∧ (t.op = .and ∨ t.op = .or)
  · -- Nothing is left of the operator but its truth value.
    obtain ⟨b, hb⟩ : ∃ b : Bool, t.op = if b then .and else .or := by
      rcases hempty.2 with h | h
      · exact ⟨true, h⟩
      · exact ⟨false, h⟩
    refine spells_bool b .formula ?_ ?_
    · obtain ⟨id, ⟨op, sort, payload⟩, cs, as⟩ := t
      obtain ⟨hcs, -⟩ := hempty
      change cs = [] at hcs
      change op = _ at hb
      subst hcs hb
      rw [text]
      cases b <;> rfl
    · rw [hsense, hb, hempty.1]
      exact Sense.apply_nil b 0
  · have htext : t.text = applied t.op.keyword (t.children.map text) := by
      rw [← htexts]
      obtain ⟨id, ⟨op, sort, payload⟩, cs, as⟩ := t
      change ¬ (cs = [] ∧ (op = .and ∨ op = .or)) at hempty
      change op.isPlain = true at hop
      change op ≠ .neg at hneg
      change _ = applied op.keyword (texts cs)
      rw [text]
      cases op with
      | all | mapSelect | mapUpdate | tuple | app _ | var | lit => cases hop
      | neg => exact absurd rfl hneg
      | and | or =>
        have hcs : cs.isEmpty = false := by simpa using hempty
        simp [hcs, Op.keyword]
      | _ => rfl
    rcases symbolSense_keyword (Op.mem_symbolOps hop hneg) (t.children.map sense) with
      ⟨hword, hall, hsymbol⟩
    exact ⟨_, spells_applied hword hall htext hes (hsense.trans hsymbol.symm)⟩

theorem spells_call {f : String} (hop : t.op = .app f) (hf : IsSymbol f) (hF : F f = true)
    (hbound : f ∉ bound) (hes : Forall₂ (Spells F bound) t.children es) :
    ∃ e, Spells F bound t e := by
  have hsense : t.sense = .apply (.app f) 0 (t.children.map sense) := by
    rw [← hop]
    exact sense_operator (by simp [hop]) (by simp [hop]) (by simp [hop]) (by simp [hop])
  have htext : t.text = if t.children.isEmpty then f else applied f (t.children.map text) := by
    rw [← texts_eq_map]
    obtain ⟨id, ⟨op, sort, payload⟩, cs, as⟩ := t
    change op = .app f at hop
    subst hop
    rw [text]
    rfl
  by_cases hcs : t.children = []
  · rw [hcs] at htext hsense
    exact ⟨_, spells_word hf.word htext
      (hsense.trans (Sexp.wordSense_function hf.toIsName hF hbound).symm)⟩
  · rw [if_neg (by simpa using hcs)] at htext
    refine ⟨_, spells_applied hf.word hf.quantifier htext hes ?_⟩
    rw [Sexp.symbolSense, hf.select, hf.update, hf.operator, hsense]

theorem text_tuple (h : t.op = .tuple) : t.text = spaced (t.children.map text) := by
  rw [← texts_eq_map]
  obtain ⟨id, ⟨op, sort, payload⟩, cs, as⟩ := t
  change op = .tuple at h
  subst h
  rw [text]
  rfl

theorem text_map {n : Nat} (hop : t.op = .mapSelect ∨ t.op = .mapUpdate)
    (hn : indexArity t.children = n) :
    t.text = applied (t.op.keyword ++ toString n) (t.children.map text) := by
  rw [← texts_eq_map, ← hn]
  obtain ⟨id, ⟨op, sort, payload⟩, cs, as⟩ := t
  change op = .mapSelect ∨ op = .mapUpdate at hop
  rcases hop with rfl | rfl <;> rw [text] <;> rfl

/-- The indices of a map operation stand among its other operands, and how many there
    are is in its symbol. -/
theorem spells_map {m i : Term} {rest : List Term} {e : Sexp} {rs : List Sexp}
    (hop : t.op = .mapSelect ∨ t.op = .mapUpdate) (hcs : t.children = m :: i :: rest)
    (hi : i.op = .tuple) (hm : Spells F bound m e)
    (hes : Forall₂ (Spells F bound) i.children es)
    (hrs : Forall₂ (Spells F bound) rest rs) : ∃ e, Spells F bound t e := by
  have harity : indexArity t.children = i.children.length := by simp [hcs, indexArity, hi]
  have hword : IsWord (t.op.keyword ++ toString i.children.length) := by
    refine IsWord.append ?_ (letters_toString _)
    rcases hop with h | h <;> rw [h] <;> decide
  have hquantifier : t.op.keyword ++ toString i.children.length ≠ Op.keyword .all := by
    intro h
    have hfirst := congrArg (fun w => w.toList.head?) h
    rcases hop with hop | hop <;> simp [hop, Op.keyword] at hfirst
  have hnot : ∀ op, op ≠ .mapSelect → op ≠ .mapUpdate → t.op ≠ op := by
    rintro op hselect hupdate rfl
    exact hop.elim hselect hupdate
  have hindices : i.sense = .apply .tuple 0 (i.children.map sense) := by
    rw [← hi]
    exact sense_operator (by simp [hi]) (by simp [hi]) (by simp [hi]) (by simp [hi])
  refine ⟨.list (.atom (t.op.keyword ++ toString i.children.length) :: e :: (es ++ rs)), ?_, ?_⟩
  · have hpieces := tokenizes_applied hword (.cons hm.tokenizes
      (.cons (tokenizes_spaced (tokenizes_all hes)) (tokenizes_all hrs)))
    rw [text_map hop harity, hcs, Sexp.tokens_applied]
    simpa [text_tuple hi] using hpieces
  · rw [Sexp.sense_applied hquantifier, Sexp.symbolSense_map hop, sense_operator
      (hnot _ (by simp) (by simp)) (hnot _ (by simp) (by simp)) (hnot _ (by simp) (by simp))
      fun _ => harity, hcs, map_cons, map_cons, hindices, Sense.apply_tuple hop,
      hm.sense, sense_all hes, sense_all hrs, map_cons, map_append]

theorem text_var {n : String} (h : t.name? = some n) : t.text = n := by
  have hop := op_of_name? h
  have hpayload := congrArg Head.payload (head_of_name? h)
  obtain ⟨id, ⟨op, sort, payload⟩, cs, as⟩ := t
  change op = .var at hop
  change payload = some (.name n) at hpayload
  subst hop hpayload
  rw [text]

theorem map_text_of_vars (h : ∀ v ∈ vs, ∃ n, v.name? = some n) :
    vs.map text = vs.filterMap name? := by
  induction vs with
  | nil => rfl
  | cons v vs ih =>
    rcases h v mem_cons_self with ⟨n, hn⟩
    rw [map_cons, filterMap_cons_some hn, text_var hn,
      ih (forall_mem_cons.mp h).2]

theorem spells_all {b : Term} {e : Sexp} (hop : t.op = .all) (hcs : t.children = vs ++ [b])
    (hvs : ∀ v ∈ vs, ∃ n, v.name? = some n ∧ IsWord n)
    (he : Spells F (vs.filterMap name? ++ bound) b e) : ∃ e, Spells F bound t e := by
  obtain ⟨names, hnames⟩ : ∃ names, names = vs.filterMap name? := ⟨_, rfl⟩
  have hvars : vs.map text = names := by
    rw [hnames]
    exact map_text_of_vars fun v hv => (hvs v hv).imp fun _ hn => hn.1
  have hwords : ∀ n ∈ names, IsWord n := by
    rw [hnames]
    intro n hn
    rcases mem_filterMap.mp hn with ⟨v, hv, hvn⟩
    rcases hvs v hv with ⟨m, hm, hword⟩
    rw [hm, Option.some.injEq] at hvn
    exact hvn ▸ hword
  have htext : t.text =
      "(" ++ ("FORALL" ++ " " ++ ("(" ++ spaced names ++ ")" ++ " " ++ b.text)) ++ ")" := by
    rw [← hvars]
    obtain ⟨id, ⟨op, sort, payload⟩, cs, as⟩ := t
    change op = .all at hop
    change cs = vs ++ [b] at hcs
    subst hop hcs
    rw [text, texts_eq_map]
    apply String.toList_inj.mp
    simp [spaced]
  have hforall : IsWord "FORALL" := by decide
  refine ⟨.list [.atom (Op.keyword .all), .list (names.map .atom), e], ?_, ?_⟩
  · have hbound : Forall₂ Tokenizes names (names.map fun n => [Token.word n]) := by
      rw [forall₂_map_right_iff]
      exact forall₂_same.mpr fun n hn => tokenizes_word (hwords n hn)
    have hpieces := ((tokenizes_word hforall).blank
      ((tokenizes_spaced hbound).parens.blank he.tokenizes)).parens
    rw [htext, Sexp.tokens_applied]
    simpa [Sexp.tokens, Sexp.tokensAll_eq_flatMap, flatMap_def, Op.keyword,
      Function.comp_def] using hpieces
  · rw [Sexp.sense_quantifier, sense_quantifier hop hcs, hnames, he.sense]

end Spells

variable {N G : String → Prop} {F : String → Bool} {t : Term}

theorem Neat.of_name? (h : Neat N G t) {n : String} (hn : t.name? = some n) :
    t.children = [] ∧ N n := by
  have hop := op_of_name? hn
  cases h with
  | var hm hcs hN =>
    rw [hn, Option.some.injEq] at hm
    exact ⟨hcs, hm ▸ hN⟩
  | int hhead _ | bool hhead _ =>
    rw [op, hhead] at hop
    cases hop
  | plain hplain _ =>
    rw [hop] at hplain
    cases hplain
  | call h _ _ | select h _ _ _ _ | update h _ _ _ _ _ | all h _ _ _ _ =>
    rw [hop] at h
    cases h

/-- A neat term is printed as an s-expression with the same sense, if its names and
    symbols can be read back. A name that is called like a function has to be bound. -/
theorem Neat.exists_spells (hlex : Lexicon F N G) (h : Neat N G t) :
    ∀ {bound : List String}, (∀ n ∈ bound, N n) → (∀ n, Free n t → n ∈ bound ∨ F n = false) →
      ∃ e, Spells F bound t e := by
  -- What is free in an operand is free in the term.
  have hoperands : ∀ {t : Term} {bound : List String}, t.op ≠ .var → t.op ≠ .all →
      (∀ n, Free n t → n ∈ bound ∨ F n = false) → ∀ c ∈ t.children, ∀ n, Free n c →
      n ∈ bound ∨ F n = false :=
    fun hvar hall hfree c hc n hn => hfree n (.operand (name?_of_op_ne hvar) hall hc hn)
  induction h with
  | @var t n hname _ hn =>
    intro bound _ hfree
    have hn := hlex.name n hn
    refine ⟨_, spells_word hn.word (text_var hname) ?_⟩
    rw [sense_var hname, Sexp.wordSense_name hn (hfree n (.var hname))]
  | int hhead hcs => exact fun _ _ => spells_int hhead hcs
  | bool hhead hcs => exact fun _ _ => spells_bool _ _ (text_literal hhead) (sense_literal hhead hcs)
  | @plain t hop _ ih =>
    intro bound hbound hfree
    have hcs := hoperands (Op.ne_of_isPlain hop rfl) (Op.ne_of_isPlain hop rfl) hfree
    rcases exists_spells_all fun c hc => ih c hc hbound (hcs c hc) with ⟨es, hes⟩
    exact spells_plain hop hes
  | @call t f hop hf _ ih =>
    intro bound hbound hfree
    rcases hlex.symbol f hf with ⟨hsymbol, hF, hNf⟩
    have hcs := hoperands (by simp [hop]) (by simp [hop]) hfree
    rcases exists_spells_all fun c hc => ih c hc hbound (hcs c hc) with ⟨es, hes⟩
    exact spells_call hop hsymbol hF (fun hmem => hNf (hbound f hmem)) hes
  | @select t m i hop hchildren hi _ _ ihm ihi =>
    intro bound hbound hfree
    have hcs := hoperands (by simp [hop]) (by simp [hop]) hfree
    have hidx := hoperands (by simp [hi]) (by simp [hi]) (hcs i (by simp [hchildren]))
    rcases ihm hbound (hcs m (by simp [hchildren])) with ⟨e, he⟩
    rcases exists_spells_all fun c hc => ihi c hc hbound (hidx c hc) with ⟨es, hes⟩
    exact spells_map (.inl hop) hchildren hi he hes .nil
  | @update t m i v hop hchildren hi _ _ _ ihm ihi ihv =>
    intro bound hbound hfree
    have hcs := hoperands (by simp [hop]) (by simp [hop]) hfree
    have hidx := hoperands (by simp [hi]) (by simp [hi]) (hcs i (by simp [hchildren]))
    rcases ihm hbound (hcs m (by simp [hchildren])) with ⟨e, he⟩
    rcases ihv hbound (hcs v (by simp [hchildren])) with ⟨e', he'⟩
    rcases exists_spells_all fun c hc => ihi c hc hbound (hidx c hc) with ⟨es, hes⟩
    exact spells_map (.inr hop) hchildren hi he hes (.cons he' .nil)
  | @all t b vs hop hchildren hvs hneat _ _ ih =>
    intro bound hbound hfree
    have hnames : t.boundNames = vs.filterMap name? := by
      rw [boundNames_of_op_all hop, hchildren, dropLast_concat]
    have hinner : ∀ n ∈ vs.filterMap name? ++ bound, N n := by
      intro n hn
      rcases mem_append.mp hn with hn | hn
      · rcases mem_filterMap.mp hn with ⟨v, hv, hvn⟩
        exact ((hneat v hv).of_name? hvn).2
      · exact hbound n hn
    obtain ⟨e, he⟩ : ∃ e, Spells F (vs.filterMap name? ++ bound) b e := by
      refine ih hinner fun n hn => ?_
      by_cases hmem : n ∈ vs.filterMap name?
      · exact .inl (mem_append_left _ hmem)
      · have hlast : t.children.getLast? = some b := by rw [hchildren, getLast?_concat]
        rcases hfree n (.body hop hlast (hnames ▸ hmem) hn) with hn | hn
        · exact .inl (mem_append_right _ hn)
        · exact .inr hn
    refine spells_all hop hchildren (fun v hv => ?_) he
    rcases hvs v hv with ⟨n, hn⟩
    exact ⟨n, hn, (hlex.name n ((hneat v hv).of_name? hn).2).word⟩

end Term

end Vouch
