import Mathlib.Data.List.DropRight
import Vouch.Proofs.Prover.Lines

/-!
# Answers Keep to Their Queries

All queries to a program share what it prints, and nothing in a verdict says which query
it is for. A query reads up to the first verdict or complaint.

## Main definitions

* `Answer.Says`: Which lines are verdicts, said without reading them.
* `Exchange`: A query with the lines that answer it and the result.
* `Child.Dialogue`: A program is asked the queries of exchanges.

## Theorems

* `Child.Prints.run_exchange`: An answer is read to its end.
* `verdicts_keep_to_queries`: Each query returns the result of its exchange.
-/

namespace Vouch

open List

namespace Text

/-- There is no blank at an end. -/
def Trimmed (cs : List Char) : Prop :=
  (∀ c r, cs = c :: r → isBlank c = false) ∧ ∀ r c, cs = r ++ [c] → isBlank c = false

theorem trimChars_eq (cs : List Char) :
    trimChars cs = (cs.dropWhile isBlank).rdropWhile isBlank :=
  rfl

theorem trimmed_trimChars (cs : List Char) : Trimmed (trimChars cs) := by
  refine ⟨fun c r h => ?_, fun r c h => ?_⟩
  · rcases rdropWhile_prefix isBlank (cs.dropWhile isBlank) with ⟨post, hpost⟩
    rw [← trimChars_eq, h, cons_append] at hpost
    have hhead := head_dropWhile_not isBlank (l := cs) (by simp [← hpost])
    simpa [← hpost] using hhead
  · rw [trimChars_eq] at h
    have hlast := rdropWhile_last_not isBlank (cs.dropWhile isBlank) (by simp [h])
    simpa [h] using hlast

theorem Trimmed.blank_front {pre cs : List Char} (h : Trimmed (pre ++ cs))
    (hpre : ∀ c ∈ pre, isBlank c = true) : pre = [] := by
  cases pre with
  | nil => rfl
  | cons c pre =>
    have hc := h.1 c (pre ++ cs) rfl
    rw [hpre c mem_cons_self] at hc
    cases hc

theorem Trimmed.blank_back {cs post : List Char} (h : Trimmed (cs ++ post))
    (hpost : ∀ c ∈ post, isBlank c = true) : post = [] := by
  rcases eq_nil_or_concat post with rfl | ⟨r, c, rfl⟩
  · rfl
  · rw [concat_eq_append] at h hpost
    have hc := h.2 (cs ++ r) c (append_assoc ..).symm
    rw [hpost c (by simp)] at hc
    cases hc

theorem exists_trimChars_pad (cs : List Char) : ∃ pre post, cs = pre ++ (trimChars cs ++ post) ∧
    (∀ c ∈ pre, isBlank c = true) ∧ ∀ c ∈ post, isBlank c = true := by
  refine ⟨cs.takeWhile isBlank, (cs.dropWhile isBlank).rtakeWhile isBlank, ?_,
    fun c => mem_takeWhile_imp, fun c => mem_rtakeWhile_imp⟩
  rw [trimChars_eq, rdropWhile_append_rtakeWhile, takeWhile_append_dropWhile]

theorem trimChars_pad (pre cs post : List Char) (hpre : ∀ c ∈ pre, isBlank c = true)
    (hpost : ∀ c ∈ post, isBlank c = true) (h : Trimmed cs) (hne : cs ≠ []) :
    trimChars (pre ++ (cs ++ post)) = cs := by
  have hdrop : (cs ++ post).dropWhile isBlank = cs ++ post := by
    rcases exists_cons_of_ne_nil hne with ⟨c, r, rfl⟩
    exact dropWhile_cons_of_neg (by simp [h.1 c r rfl])
  have hback : cs.reverse.dropWhile isBlank = cs.reverse := by
    rcases eq_nil_or_concat cs with rfl | ⟨r, c, rfl⟩
    · rfl
    · rw [concat_eq_append, reverse_append]
      exact dropWhile_cons_of_neg (by simp [h.2 r c (concat_eq_append ..)])
  rw [trimChars, dropWhile_append_of_pos hpre, hdrop, reverse_append,
    dropWhile_append_of_pos (by simpa using hpost), hback, reverse_reverse]

end Text

namespace Answer

open Text

/-- The word for a verdict. -/
def word : Bool → List Char
  | true => "Valid.".toList
  | false => "Invalid.".toList

/-- The characters are the word for a verdict, or a number, a colon and the word. -/
inductive Says (verdict : Bool) : List Char → Prop
  | bare : Says verdict (word verdict)
  | numbered {digits gap space : List Char} : digits ≠ [] → (∀ c ∈ digits, c.isDigit = true) →
      (∀ c ∈ gap, isBlank c = true) → (∀ c ∈ space, isBlank c = true) →
      Says verdict (digits ++ gap ++ ':' :: (space ++ word verdict))

theorem word_ne_nil (b : Bool) : word b ≠ [] := by
  cases b <;> decide

theorem trimmed_word (b : Bool) : Trimmed (word b) := by
  have htrim : trimChars (word b) = word b := by cases b <;> decide
  exact htrim ▸ trimmed_trimChars (word b)

theorem colon_notMem_word (b : Bool) : ':' ∉ word b := by
  cases b <;> decide

theorem isBlank_of_isDigit {c : Char} (h : c.isDigit = true) : isBlank c = false := by
  simp only [Char.isDigit, Bool.and_eq_true, decide_eq_true_eq, ge_iff_le, UInt32.le_iff_toNat_le]
    at h
  have hlow : 48 ≤ c.toNat := h.1
  have hhigh : c.toNat ≤ 57 := h.2
  simp only [isBlank, Bool.or_eq_false_iff, Bool.and_eq_false_iff, decide_eq_false_iff_not,
    beq_eq_false_iff_ne]
  omega

theorem trimmed_of_digits {cs : List Char} (h : ∀ c ∈ cs, c.isDigit = true) : Trimmed cs := by
  refine ⟨fun c r hcs => ?_, fun r c hcs => ?_⟩
  · exact isBlank_of_isDigit (h c (by simp [hcs]))
  · exact isBlank_of_isDigit (h c (by simp [hcs]))

theorem unnumbered_of_colon {number rest : List Char} (h : ':' ∉ number) :
    unnumbered (number ++ ':' :: rest) =
      if !number.isEmpty && (trimChars number).all Char.isDigit then trimChars rest
      else number ++ ':' :: rest := by
  have hnumber : ∀ c ∈ number, (c != ':') = true := fun c hc =>
    bne_iff_ne.mpr fun heq => h (heq ▸ hc)
  have htake : (number ++ ':' :: rest).takeWhile (· != ':') = number := by
    rw [takeWhile_append_of_pos hnumber, takeWhile_cons_of_neg (by simp),
      append_nil]
  have hdrop : (number ++ ':' :: rest).dropWhile (· != ':') = ':' :: rest := by
    rw [dropWhile_append_of_pos hnumber, dropWhile_cons_of_neg (by simp)]
  simp only [unnumbered, htake, hdrop]

theorem unnumbered_of_no_colon {cs : List Char} (h : ':' ∉ cs) : unnumbered cs = cs := by
  have hdrop : cs.dropWhile (· != ':') = [] :=
    dropWhile_eq_nil_iff.mpr fun c hc => bne_iff_ne.mpr fun heq => h (heq ▸ hc)
  simp only [unnumbered, hdrop]

theorem verdict?_eq_some_iff {cs : List Char} {b : Bool} :
    verdict? cs = some b ↔ unnumbered cs = word b := by
  have hwords : word true ≠ word false := by decide
  change (if unnumbered cs = word true then some true
    else if unnumbered cs = word false then some false else none) = some b ↔ _
  split
  · next h => cases b <;> simp [h, hwords]
  · next h =>
    split
    · next h' => cases b <;> simp [h', hwords.symm]
    · next h' => cases b <;> simp [h, h']

theorem Says.of_unnumbered {cs : List Char} {b : Bool} (h : Trimmed cs)
    (hword : unnumbered cs = word b) : Says b cs := by
  by_cases hcolon : ':' ∈ cs
  · rcases eq_append_cons_of_mem hcolon with ⟨number, rest, rfl, hnumber⟩
    rw [unnumbered_of_colon hnumber] at hword
    split at hword
    · next hdigits =>
      simp only [Bool.and_eq_true, all_eq_true, Bool.not_eq_true', isEmpty_eq_false_iff]
        at hdigits
      rcases exists_trimChars_pad number with ⟨pre, gap, hnum, hpre, hgap⟩
      rcases exists_trimChars_pad rest with ⟨space, post, hrest, hspace, hpost⟩
      rw [hword] at hrest
      generalize trimChars number = digits at hnum hdigits
      subst hnum hrest
      -- Without blanks at the ends of the line there are none before the number and
      -- none after the word.
      have htail : Trimmed (pre ++ (digits ++ gap) ++ ':' :: (space ++ word b) ++ post) := by
        simpa using h
      have hhead : Trimmed (pre ++ (digits ++ gap ++ ':' :: (space ++ (word b ++ post)))) := by
        simpa using h
      have hback := htail.blank_back hpost
      have hfront := hhead.blank_front hpre
      subst hback hfront
      have hne : digits ≠ [] := by
        rintro rfl
        exact hdigits.1 (Trimmed.blank_front h hgap)
      rw [append_nil, nil_append]
      exact .numbered hne hdigits.2 hgap hspace
    · exact absurd (hword ▸ hcolon) (colon_notMem_word b)
  · rw [← unnumbered_of_no_colon hcolon, hword]
    exact .bare

theorem Says.unnumbered_eq {cs : List Char} {b : Bool} (h : Says b cs) :
    unnumbered cs = word b := by
  cases h with
  | bare => exact unnumbered_of_no_colon (colon_notMem_word b)
  | @numbered digits gap space hne hdigits hgap hspace =>
    have hcolon : ':' ∉ digits ++ gap := by
      intro hmem
      rcases mem_append.mp hmem with hmem | hmem
      · exact absurd (hdigits _ hmem) (by decide)
      · exact absurd (hgap _ hmem) (by decide)
    have hnumber : trimChars (digits ++ gap) = digits :=
      trimChars_pad [] digits gap (by simp) hgap (trimmed_of_digits hdigits) hne
    have hrest : trimChars (space ++ word b) = word b := by
      simpa using trimChars_pad space (word b) [] hspace (by simp) (trimmed_word b) (word_ne_nil b)
    rw [unnumbered_of_colon hcolon, hnumber, hrest, if_pos]
    simpa [hne] using hdigits

theorem says_iff {cs : List Char} {b : Bool} (h : Trimmed cs) :
    verdict? cs = some b ↔ Says b cs :=
  verdict?_eq_some_iff.trans ⟨.of_unnumbered h, Says.unnumbered_eq⟩

/-- The line starts with the complaint, apart from blanks. -/
def Complains (line : String) : Prop :=
  complaint.toList <+: trimChars line.toList

/-- The line is neither a verdict nor a complaint. -/
def Quiet (line : String) : Prop :=
  ¬ Complains line ∧ ∀ b, ¬ Says b (trimChars line.toList)

/-- The line ends an answer, with this result. -/
inductive Closes (line : String) : Except ProverError Bool → Prop
  | verdict {b : Bool} : Says b (trimChars line.toList) → Closes line (.ok b)
  | complaint : Complains line → Closes line (.error (.malformed (Text.trim line)))

theorem ofLine_of_complains {line : String} (h : Complains line) :
    ofLine line = .error (.malformed (Text.trim line)) :=
  if_pos <| isPrefixOf_iff_prefix.mpr h

theorem ofLine_of_not_complains {line : String} (h : ¬ Complains line) :
    ofLine line = .ok (verdict? (trimChars line.toList)) :=
  if_neg fun hstart => h <| isPrefixOf_iff_prefix.mp hstart

theorem Says.not_complains {line : String} {b : Bool} (h : Says b (trimChars line.toList)) :
    ¬ Complains line := by
  unfold Complains
  generalize trimChars line.toList = cs at h
  cases h with
  | bare => cases b <;> decide
  | @numbered digits _ _ hne hdigits _ _ =>
    rcases exists_cons_of_ne_nil hne with ⟨c, digits, rfl⟩
    rintro ⟨_, hcs⟩
    -- The complaint starts with a letter.
    have hc : 'B' = c := (List.cons.inj hcs).1
    exact absurd (hdigits c mem_cons_self) (hc ▸ by decide)

theorem ofLine_eq_verdict_iff {line : String} {b : Bool} :
    ofLine line = .ok (some b) ↔ Says b (trimChars line.toList) := by
  by_cases hc : Complains line
  · rw [ofLine_of_complains hc]
    exact ⟨fun h => by simp at h, fun h => absurd hc h.not_complains⟩
  · rw [ofLine_of_not_complains hc, Except.ok.injEq, says_iff (trimmed_trimChars _)]

theorem ofLine_eq_none_iff {line : String} : ofLine line = .ok none ↔ Quiet line := by
  refine ⟨fun h => ⟨fun hc => ?_, fun b hb => ?_⟩, fun h => ?_⟩
  · rw [ofLine_of_complains hc] at h
    cases h
  · rw [ofLine_eq_verdict_iff.mpr hb] at h
    cases h
  · rw [ofLine_of_not_complains h.1]
    cases hverdict : verdict? (trimChars line.toList) with
    | none => rfl
    | some b => exact absurd ((says_iff (trimmed_trimChars _)).mp hverdict) (h.2 b)

variable {noise rest : List String} {closing : String} {r : Except ProverError Bool}

theorem read_of_quiet (h : ∀ line ∈ noise, Quiet line) : read (noise ++ rest) = read rest := by
  induction noise with
  | nil => rfl
  | cons line noise ih =>
    rw [cons_append, read, ofLine_eq_none_iff.mpr (h line mem_cons_self)]
    exact ih (forall_mem_cons.mp h).2

theorem read_of_closes (h : Closes closing r) : read (closing :: rest) = (some r, rest) := by
  rw [read]
  cases h with
  | verdict h => rw [ofLine_eq_verdict_iff.mpr h]
  | complaint h => rw [ofLine_of_complains h]

end Answer

open Answer

/-- How an answer ends: what is left of it after the lines of no interest, whether the
    program still runs then, and the result. A line closes the answer, or the output is
    over. -/
inductive Ends : List String → Life → Except ProverError Bool → Prop
  | closing {line : String} {life : Life} {r : Except ProverError Bool} :
      Closes line r → Ends [line] life r
  | output {life : Life} : Ends [] life (.error (.exited life.status?))

theorem Ends.read_eq {rest : List String} {life : Life} {r : Except ProverError Bool}
    (h : Ends rest life r) :
    (Answer.read rest).1.getD (.error (.exited life.status?)) = r ∧ (Answer.read rest).2 = [] := by
  cases h with
  | closing hline =>
    rw [read_of_closes hline]
    exact ⟨rfl, rfl⟩
  | output => exact ⟨rfl, rfl⟩

/-- A query with the lines that answer it and the result. -/
structure Exchange where
  query : String
  noise : List String
  rest : List String
  life : Life
  result : Except ProverError Bool
  quiet : ∀ line ∈ noise, Quiet line
  ends : Ends rest life result

namespace Child

variable {ω κ : Type} {host : Host ω κ} {p p' q : Child κ} {o o' : ω}

/-- The text can be written to the program, which then prints the lines and is left in
    a state. -/
def Prints (host : Host ω κ) (text : String) (lines : List String) (p : Child κ) (o : ω)
    (q : Child κ) : Prop :=
  ∃ o', ((write host text).run.run p).run o = ((.ok (), q), o') ∧ q.unread = p.unread ++ lines

/-- The program is asked the queries of the exchanges one after the other and prints
    their lines, and the queries return the results. -/
inductive Dialogue (host : Host ω κ) : List Exchange → Child κ → ω →
    List (Except ProverError Bool) → Child κ → ω → Prop
  | nil {p : Child κ} {o : ω} : Dialogue host [] p o [] p o
  | cons {e : Exchange} {es : List Exchange} {p p₁ q p' : Child κ} {o o₁ o' : ω}
      {r : Except ProverError Bool} {rs : List (Except ProverError Bool)} :
      Prints host e.query (e.noise ++ e.rest) p o q → q.life = e.life →
      ((query host e.query).run.run p).run o = ((r, p₁), o₁) →
      Dialogue host es p₁ o₁ rs p' o' → Dialogue host (e :: es) p o (r :: rs) p' o'

variable {text : String} {noise rest : List String}

/-- A query returns what is read from the lines that are printed for it, and if nothing
    is, it finds that the program ended. What comes after the answer stays unread. -/
theorem Prints.run_query (h : Prints host text (noise ++ rest) p o q) (hp : p.unread = [])
    (hnoise : ∀ line ∈ noise, Quiet line) :
    ∃ o', ((query host text).run.run p).run o =
      (((Answer.read rest).1.getD (.error (.exited q.life.status?)),
        { q with unread := (Answer.read rest).2, queries := q.queries + 1 }), o') := by
  rcases h with ⟨o', hwrite, hunread⟩
  refine ⟨o', ?_⟩
  rw [query_eq, ExceptT.run_bind, StateT.run_bind, StateT.run_bind, hwrite]
  rw [hp, nil_append] at hunread
  change (hearAnswer.run.run q).run o' = _
  unfold hearAnswer
  rw [run_getThe_bind, hunread, read_of_quiet hnoise]
  rcases Answer.read rest with ⟨answer, unread⟩
  -- There is no answer, or it is a verdict, or a complaint.
  cases answer with
  | none => rfl
  | some verdict => cases verdict <;> rfl

/-- An answer is read to its end, so the next query starts with its own. -/
theorem Prints.run_exchange {e : Exchange} (h : Prints host e.query (e.noise ++ e.rest) p o q)
    (hlife : q.life = e.life) (hp : p.unread = []) :
    ∃ o', ((query host e.query).run.run p).run o =
      ((e.result, { q with unread := [], queries := q.queries + 1 }), o') := by
  rcases h.run_query hp e.quiet with ⟨o', hrun⟩
  rcases e.ends.read_eq with ⟨hresult, hleft⟩
  rw [← hlife] at hresult
  rw [hresult, hleft] at hrun
  exact ⟨o', hrun⟩

theorem Dialogue.results {es : List Exchange} {rs : List (Except ProverError Bool)}
    (h : Dialogue host es p o rs p' o') (hp : p.unread = []) :
    rs = es.map Exchange.result ∧ p'.unread = [] := by
  induction h with
  | nil => exact ⟨rfl, hp⟩
  | cons hprints hlife hquery _ ih =>
    rcases hprints.run_exchange hlife hp with ⟨_, hrun⟩
    cases hquery.symm.trans hrun
    rcases ih rfl with ⟨rfl, hlast⟩
    exact ⟨rfl, hlast⟩

end Child

open Child

/-- If a program prints for each query some lines of no interest and then one that
    closes the answer, or nothing more because its output is over, then each query
    returns what the line for it says, or that the program ended. After such a dialogue
    the same holds of the next query, whatever comes after the line that closes its
    answer. A line is a verdict if it is one of two words after what may be a number and
    a colon, not counting blanks. -/
theorem verdicts_keep_to_queries {ω κ : Type} {host : Host ω κ} {p p' : Child κ} {o o' : ω}
    {es : List Exchange} {rs : List (Except ProverError Bool)} (hp : p.unread = [])
    (h : Dialogue host es p o rs p' o') :
    rs = es.map Exchange.result ∧
    (∀ text noise closing tail r q, (∀ line ∈ noise, Quiet line) → Closes closing r →
      Prints host text (noise ++ closing :: tail) p' o' q →
      (((query host text).run.run p').run o').1.1 = r) ∧
    (∀ text noise q, (∀ line ∈ noise, Quiet line) → Prints host text noise p' o' q →
      (((query host text).run.run p').run o').1.1 = .error (.exited q.life.status?)) ∧
    (∀ line b, ofLine line = .ok (some b) ↔ Says b (Text.trimChars line.toList)) ∧
    ∀ line, ofLine line = .ok none ↔ Quiet line := by
  rcases h.results hp with ⟨hresults, hp'⟩
  refine ⟨hresults, ?_, ?_, fun _ _ => ofLine_eq_verdict_iff, fun _ => ofLine_eq_none_iff⟩
  · intro text noise closing tail r q hnoise hclosing hprints
    rcases hprints.run_query hp' hnoise with ⟨_, hrun⟩
    rw [hrun, read_of_closes hclosing]
    rfl
  · intro text noise q hnoise hprints
    rw [← append_nil noise] at hprints
    rcases hprints.run_query hp' hnoise with ⟨_, hrun⟩
    rw [hrun]
    rfl

/-- A program that reacts to the lines it is sent in a way written down beforehand. What
    is written to it after it ended is accepted. -/
def Host.playing : Host Unit (List Output) where
  isThere _ := pure true
  spawn _ := pure (.ok [])
  hear _ outputs := pure (outputs.headD {}, outputs.tail)
  accepts _ _ := pure true

theorem quiet_counterexample : ∀ line ∈ ["Counterexample: 3: x"], Quiet line :=
  forall_mem_singleton.mpr (ofLine_eq_none_iff.mp rfl)

theorem closes_numbered : Closes " 12 : Invalid. " (.ok false) :=
  .verdict (ofLine_eq_verdict_iff.mp rfl)

/-- An answer with a line that has a number and a colon but no verdict, and a verdict
    with blanks around its parts. -/
def refutedQuery : Exchange where
  query := "A"
  noise := ["Counterexample: 3: x"]
  rest := [" 12 : Invalid. "]
  life := .running
  result := .ok false
  quiet := quiet_counterexample
  ends := .closing closes_numbered

/-- An answer that ends with the output. -/
def brokenQuery : Exchange where
  query := "B"
  noise := ["Counterexample: 3: x"]
  rest := []
  life := .ended 1
  result := .error (.exited (some 1))
  quiet := quiet_counterexample
  ends := .output

/-- No answer, because the output was over before. -/
def lostQuery : Exchange :=
  { brokenQuery with noise := [], quiet := forall_mem_nil _ }

/-- A query is refuted, the program ends while it answers the next, and a third query can
    still be written to it. -/
theorem verdicts_keep_to_queries_ending :
    let answers : List Output := [{ lines := refutedQuery.noise ++ refutedQuery.rest },
      { lines := brokenQuery.noise, ended := some 1 }]
    ∃ rs p', Dialogue .playing [refutedQuery, brokenQuery, lostQuery] { program := answers } ()
        rs p' () ∧
      rs = [.ok false, .error (.exited (some 1)), .error (.exited (some 1))] := by
  intro answers
  have hfirst : Prints .playing refutedQuery.query (refutedQuery.noise ++ refutedQuery.rest)
      { program := answers } () _ := ⟨(), rfl, rfl⟩
  rcases hfirst.run_exchange rfl rfl with ⟨_, hrefuted⟩
  have hsecond : Prints .playing brokenQuery.query (brokenQuery.noise ++ brokenQuery.rest)
      { program := answers.tail, queries := 1 } () _ := ⟨(), rfl, rfl⟩
  rcases hsecond.run_exchange rfl rfl with ⟨_, hbroken⟩
  have hthird : Prints .playing lostQuery.query (lostQuery.noise ++ lostQuery.rest)
      { program := [], life := .ended 1, queries := 2 } () _ := ⟨(), rfl, rfl⟩
  rcases hthird.run_exchange rfl rfl with ⟨_, hlost⟩
  have h := Dialogue.cons hfirst rfl hrefuted
    (.cons hsecond rfl hbroken (.cons hthird rfl hlost .nil))
  exact ⟨_, _, h, (verdicts_keep_to_queries rfl h).1⟩

/-- A complaint is found behind blanks, although the line does not start with it. -/
theorem complaints_need_not_start_lines :
    ¬ "Bad input".toList <+: "  Bad input".toList ∧
    (∀ b, ¬ Says b (Text.trimChars "  Bad input".toList)) ∧ Says true "Valid.".toList ∧
    (((query .playing "A").run.run
        ({ program := [{ lines := ["  Bad input", "Valid."] }] } : Child (List Output))).run ()).1.1 =
      .error (.malformed "Bad input") := by
  have hcomplains : Complains "  Bad input" := by
    unfold Complains
    decide
  exact ⟨by decide, fun _ h => h.not_complains hcomplains, .bare, rfl⟩

end Vouch
