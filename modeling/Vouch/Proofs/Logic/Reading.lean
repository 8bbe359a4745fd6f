import Vouch.Proofs.Logic.Structure

/-!
# Readings of Formulas

Sending formulas to a prover needs much less than a structure. Whatever the symbols
mean, it is enough that connectives, equality and quantifiers are the usual ones, and
that everything else depends on its operands by their values only.

## Main definitions

* `Reading`: What the symbols mean, as far as it is open.
* `Reading.Holds`: A term holds as a formula.
* `Reading.Entails`: A formula holds wherever the assumptions do.

## Theorems

* `Reading.holds_congr`: Only what a term mentions matters.
-/

namespace Vouch

open List

/-- Whether the operator makes a formula of formulas. -/
def Op.isConnective : Op → Bool
  | and | or | not | implies | iff => true
  | _ => false

/-- What a connective states, from what its operands state. With the wrong number
    of operands it says nothing. -/
def Op.joins : Op → List Prop → Prop
  | and, ps => ∀ p ∈ ps, p
  | or, ps => ∃ p ∈ ps, p
  | not, [p] => ¬ p
  | implies, [p, q] => p → q
  | iff, [p, q] => p ↔ q
  | _, _ => True

namespace Env

variable {V : Type}

/-- The names of a kind stand for the same. -/
def Agree (N : String → Prop) (E E' : Env V) : Prop :=
  ∀ n, N n → E.value n = E'.value n ∧ (E.truth n ↔ E'.truth n)

theorem Agree.refl (N : String → Prop) (E : Env V) : Agree N E E :=
  fun _ _ => ⟨rfl, Iff.rfl⟩

variable {E E' : Env V} {N : String → Prop}

theorem Agree.trans {E'' : Env V} (h : Agree N E E') (h' : Agree N E' E'') : Agree N E E'' :=
  fun n hn => ⟨(h n hn).1.trans (h' n hn).1, (h n hn).2.trans (h' n hn).2⟩

theorem Agree.mono {N' : String → Prop} (h : Agree N E E') (hsub : ∀ n, N' n → N n) :
    Agree N' E E' :=
  fun n hn => h n (hsub n hn)

theorem Agree.set (h : Agree N E E') (m : String) (v : V) : Agree N (E.set m v) (E'.set m v) := by
  intro n hn
  refine ⟨?_, (h n hn).2⟩
  by_cases hnm : n = m
  · subst hnm
    simp [Env.set]
  · simp [Env.set, hnm, (h n hn).1]

theorem forAll_congr {P Q : Env V → Prop} (hbody : ∀ E E', Agree N E E' → (P E ↔ Q E')) :
    ∀ (ns : List String) {E E' : Env V}, Agree N E E' → (ForAll ns P E ↔ ForAll ns Q E')
  | [], _, _, h => hbody _ _ h
  | n :: ns, _, _, h => forall_congr' fun v => forAll_congr hbody ns (h.set n v)

/-- Another value and another truth for a name. -/
def assign (E : Env V) (n : String) (v : V) (p : Prop) : Env V where
  value := Function.update E.value n v
  truth := Function.update E.truth n p

theorem agree_assign {n : String} (hn : ¬ N n) (E : Env V) (v : V) (p : Prop) :
    Agree N E (E.assign n v p) := by
  intro m hm
  have hne : m ≠ n := fun h => hn (h ▸ hm)
  simp [assign, hne]

end Env

/-- What the symbols mean, as far as connectives, equality and quantifiers do not
    settle it. -/
structure Reading where
  Value : Type
  /-- The value of a node, from the number of its indices and the values of its
      operands. -/
  result : Head → Nat → List Value → Value
  /-- What a node states that is not a connective. -/
  states : Head → Nat → List Value → Prop
  states_true : ∀ indices vs,
    states { op := .lit, sort := .formula, payload := some (.bool true) } indices vs
  states_eq : ∀ indices a b, states { op := .eq, sort := .formula } indices [a, b] ↔ a = b

namespace Reading

variable (R : Reading)

mutual

/-- The values that a term contributes to the arguments it stands among. -/
def values (E : Env R.Value) : Term → List R.Value
  | .node id h cs as =>
    match (Term.node id h cs as).name? with
    | some n => [E.value n]
    | none =>
      if h.op = .tuple then valuesAll E cs
      else [R.result h (Term.indexArity cs) (valuesAll E cs)]

/-- The values of a list of operands. -/
def valuesAll (E : Env R.Value) : List Term → List R.Value
  | [] => []
  | t :: ts => values E t ++ valuesAll E ts

end

mutual

/-- The term holds as a formula. -/
def Holds : Term → Env R.Value → Prop
  | .node id h cs as, E =>
    match (Term.node id h cs as).name? with
    | some n => E.truth n
    | none =>
      if h.op = .all then Env.ForAll (Term.node id h cs as).boundNames (HoldsLast cs) E
      else if h.op.isConnective then h.op.joins (truths cs E)
      else R.states h (Term.indexArity cs) (R.valuesAll E cs)

/-- Whether each of a list of operands holds. -/
def truths : List Term → Env R.Value → List Prop
  | [], _ => []
  | t :: ts, E => Holds t E :: truths ts E

/-- The last of a list of operands holds, the body of a quantifier. -/
def HoldsLast : List Term → Env R.Value → Prop
  | [], _ => True
  | t :: ts, E => if ts.isEmpty then Holds t E else HoldsLast ts E

end

/-- The formula holds wherever the assumptions do. -/
def Entails (ps : List Term) (q : Term) : Prop :=
  ∀ E, (∀ p ∈ ps, R.Holds p E) → R.Holds q E

variable {R} {t : Term}

theorem valuesAll_eq_flatMap (E : Env R.Value) (ts : List Term) :
    R.valuesAll E ts = ts.flatMap (R.values E) := by
  induction ts with
  | nil => rw [valuesAll, flatMap_nil]
  | cons t ts ih => rw [valuesAll, ih, flatMap_cons]

theorem truths_eq_map (E : Env R.Value) (ts : List Term) :
    R.truths ts E = ts.map (R.Holds · E) := by
  induction ts with
  | nil => rw [truths, map_nil]
  | cons t ts ih => rw [truths, ih, map_cons]

theorem values_var {n : String} (h : t.name? = some n) (E : Env R.Value) :
    R.values E t = [E.value n] := by
  obtain ⟨id, hd, cs, as⟩ := t
  rw [values, h]

theorem values_tuple (h : t.op = .tuple) (E : Env R.Value) :
    R.values E t = t.children.flatMap (R.values E) := by
  have hname : t.name? = none := by rw [Term.name?, h]
  obtain ⟨id, hd, cs, as⟩ := t
  have hop : hd.op = .tuple := h
  rw [values, hname, ← valuesAll_eq_flatMap]
  simp only [hop, if_true, Term.children]

theorem values_operator (hname : t.name? = none) (hop : t.op ≠ .tuple) (E : Env R.Value) :
    R.values E t =
      [R.result t.head (Term.indexArity t.children) (t.children.flatMap (R.values E))] := by
  obtain ⟨id, hd, cs, as⟩ := t
  have hne : hd.op ≠ .tuple := hop
  rw [values, hname, ← valuesAll_eq_flatMap]
  simp only [hne, if_false, Term.children, Term.head]

theorem holds_var {n : String} (h : t.name? = some n) (E : Env R.Value) :
    R.Holds t E ↔ E.truth n := by
  obtain ⟨id, hd, cs, as⟩ := t
  rw [Holds, h]

theorem holds_connective (h : t.op.isConnective = true) (E : Env R.Value) :
    R.Holds t E ↔ t.op.joins (t.children.map (R.Holds · E)) := by
  have hname : t.name? = none := Term.name?_of_op_ne fun hop => by simp [hop, Op.isConnective] at h
  obtain ⟨id, hd, cs, as⟩ := t
  have hop : hd.op.isConnective = true := h
  have hall : hd.op ≠ .all := fun heq => by simp [heq, Op.isConnective] at hop
  rw [Holds, hname, ← truths_eq_map]
  simp only [hall, hop, if_true, if_false, Term.children, Term.op, Term.head]

theorem holds_atom (hname : t.name? = none) (hall : t.op ≠ .all)
    (hop : t.op.isConnective = false) (E : Env R.Value) :
    R.Holds t E ↔
      R.states t.head (Term.indexArity t.children) (t.children.flatMap (R.values E)) := by
  obtain ⟨id, hd, cs, as⟩ := t
  have hne : hd.op ≠ .all := hall
  have hno : hd.op.isConnective = false := hop
  rw [Holds, hname, ← valuesAll_eq_flatMap]
  simp only [hne, hno, Bool.false_eq_true, if_false, Term.children, Term.head]

theorem holds_all (hop : t.op = .all) (E : Env R.Value) :
    R.Holds t E ↔ Env.ForAll t.boundNames (R.HoldsLast t.children) E := by
  have hname := Term.name?_of_op_all hop
  obtain ⟨id, hd, cs, as⟩ := t
  have heq : hd.op = .all := hop
  rw [Holds, hname]
  simp only [heq, if_true, Term.children]

theorem holdsLast_concat (ts : List Term) {b : Term} :
    R.HoldsLast (ts ++ [b]) = R.Holds b := by
  funext E
  induction ts with
  | nil => simp [HoldsLast]
  | cons u us ih => simpa [HoldsLast] using ih

theorem values_congr (t : Term) : ∀ {E E' : Env R.Value},
    Env.Agree (Term.Mentions · t) E E' → R.values E t = R.values E' t := by
  induction t using Term.induction with
  | step t ih =>
    intro E E' hagree
    have hcs : t.children.flatMap (R.values E) = t.children.flatMap (R.values E') :=
      flatMap_congr fun c hc => ih c hc (hagree.mono fun _ => .operand hc)
    cases hname : t.name? with
    | some n => rw [values_var hname, values_var hname, (hagree n (.var hname)).1]
    | none =>
      by_cases hop : t.op = .tuple
      · rw [values_tuple hop, values_tuple hop, hcs]
      · rw [values_operator hname hop, values_operator hname hop, hcs]

theorem holdsLast_congr {E E' : Env R.Value} : ∀ {ts : List Term},
    (∀ t ∈ ts, R.Holds t E ↔ R.Holds t E') → (R.HoldsLast ts E ↔ R.HoldsLast ts E')
  | [], _ => by rw [HoldsLast, HoldsLast]
  | t :: ts, hts => by
    rw [HoldsLast, HoldsLast]
    split
    · exact hts t mem_cons_self
    · exact holdsLast_congr (forall_mem_cons.mp hts).2

/-- Names are looked up as values and as formulas, so environments have to agree on
    both. -/
theorem holds_congr (t : Term) : ∀ {E E' : Env R.Value},
    Env.Agree (Term.Mentions · t) E E' → (R.Holds t E ↔ R.Holds t E') := by
  induction t using Term.induction with
  | step t ih =>
    intro E E' hagree
    by_cases hall : t.op = .all
    · -- Quantifiers change names that the term mentions, in both the same way.
      rw [holds_all hall, holds_all hall]
      refine Env.forAll_congr (fun E₁ E₂ h => ?_) _ hagree
      exact holdsLast_congr fun c hc => ih c hc (h.mono fun _ => .operand hc)
    cases hname : t.name? with
    | some n => rw [holds_var hname, holds_var hname, (hagree n (.var hname)).2]
    | none =>
      cases hop : t.op.isConnective with
      | true =>
        have hcs : t.children.map (R.Holds · E) = t.children.map (R.Holds · E') :=
          map_congr_left fun c hc =>
            propext (ih c hc (hagree.mono fun _ => .operand hc))
        rw [holds_connective hop, holds_connective hop, hcs]
      | false =>
        have hcs : t.children.flatMap (R.values E) = t.children.flatMap (R.values E') :=
          flatMap_congr fun c hc => values_congr c (hagree.mono fun _ => .operand hc)
        rw [holds_atom hname hall hop, holds_atom hname hall hop, hcs]

end Reading

namespace Structure

variable (S : Structure)

/-- The reading of a structure. -/
abbrev reading : Reading where
  Value := S.Value
  result := S.result
  states h _ vs := S.states h [] vs
  states_true _ _ := rfl
  states_eq _ _ _ := Iff.rfl

variable {S}

mutual

theorem values_reading : ∀ (t : Term) (E : Env S.reading.Value),
    S.reading.values E t = S.values E t
  | .node id ⟨op, sort, payload⟩ cs as, E => by
    rw [Reading.values, valuesAll_reading cs E]
    -- Of variables only those with a name have a value of their own.
    cases op with
    | var =>
      cases payload with
      | none => rfl
      | some l => cases l <;> rfl
    | _ => rfl

theorem valuesAll_reading : ∀ (ts : List Term) (E : Env S.reading.Value),
    S.reading.valuesAll E ts = S.valuesAll E ts
  | [], _ => rfl
  | t :: ts, E => by
    rw [Reading.valuesAll, values_reading t E, valuesAll_reading ts E]
    rfl

end

theorem states_eq_ite (h : Head) (ps : List Prop) (vs : List S.Value) :
    S.states h ps vs = if h.op.isConnective then h.op.joins ps else S.states h [] vs := by
  obtain ⟨op, sort, payload⟩ := h
  -- Where the number of operands matters, each number is a case of its own.
  cases op with
  | not | implies | iff => rcases ps with _ | ⟨p, _ | ⟨q, _ | _⟩⟩ <;> rfl
  | eq | neq | lt | le => rcases vs with _ | ⟨a, _ | ⟨b, _ | _⟩⟩ <;> rfl
  | _ => rfl

mutual

theorem holds_reading : ∀ (t : Term) (E : Env S.reading.Value),
    S.reading.Holds t E ↔ S.Holds t E
  | .node id ⟨op, sort, payload⟩ cs as, E => by
    have hlast : S.reading.HoldsLast cs = S.HoldsLast cs :=
      funext fun E' => propext (holdsLast_reading cs E')
    rw [Reading.Holds, valuesAll_reading cs E, truths_reading cs E, hlast]
    -- Apart from names and quantifiers, a node states what its head does.
    have hstates := S.states_eq_ite ⟨op, sort, payload⟩ (S.truths cs E) (S.valuesAll E cs)
    cases op with
    | all => rfl
    | var =>
      cases payload with
      | none => rfl
      | some l => cases l <;> rfl
    | _ => exact iff_of_eq hstates.symm

theorem truths_reading : ∀ (ts : List Term) (E : Env S.reading.Value),
    S.reading.truths ts E = S.truths ts E
  | [], _ => rfl
  | t :: ts, E => by
    rw [Reading.truths, propext (holds_reading t E), truths_reading ts E]
    rfl

theorem holdsLast_reading : ∀ (ts : List Term) (E : Env S.reading.Value),
    S.reading.HoldsLast ts E ↔ S.HoldsLast ts E
  | [], _ => Iff.rfl
  | t :: ts, E => by
    rw [Reading.HoldsLast, HoldsLast, holds_reading t E, holdsLast_reading ts E]

end

variable {t : Term} {sort : TermSort}

theorem values_var {n : String} (h : t.name? = some n) (E : Env S.Value) :
    S.values E t = [E.value n] := by
  rw [← values_reading, Reading.values_var h]

theorem flatMap_values_reading (ts : List Term) (E : Env S.reading.Value) :
    ts.flatMap (S.reading.values E) = ts.flatMap (S.values E) :=
  flatMap_congr fun t _ => values_reading t E

theorem values_tuple (h : t.op = .tuple) (E : Env S.Value) :
    S.values E t = t.children.flatMap (S.values E) := by
  rw [← values_reading, Reading.values_tuple h, flatMap_values_reading]

theorem values_literal {l : Literal} (h : t.head = { op := .lit, sort, payload := some l })
    (E : Env S.Value) : S.values E t = [S.literal (some l)] := by
  have hop : t.op = .lit := congrArg Head.op h
  rw [← values_reading, Reading.values_operator (by rw [Term.name?, hop]) (by simp [hop]), h]
  rfl

theorem name?_of_head {op : Op} (h : t.head = { op, sort }) : t.name? = none := by
  obtain ⟨id, hd, cs, as⟩ := t
  change hd = _ at h
  subst h
  cases op <;> rfl

theorem values_operator {op : Op} (h : t.head = { op, sort }) (hop : op ≠ .tuple)
    (E : Env S.Value) : S.values E t =
      [S.result { op, sort } (Term.indexArity t.children) (t.children.flatMap (S.values E))] := by
  have hne : t.op ≠ .tuple := by rwa [Term.op, h]
  rw [← values_reading, Reading.values_operator (name?_of_head h) hne, flatMap_values_reading, h]

theorem values_mapSelect {m i : Term} (h : t.head = { op := .mapSelect, sort })
    (hcs : t.children = [m, i]) (hi : i.op = .tuple) (E : Env S.Value) :
    S.values E t = [S.select i.children.length (S.values E m ++ S.values E i)] := by
  rw [values_operator h (by simp), hcs]
  simp [result, Term.indexArity, hi]

theorem values_mapUpdate {m i v : Term} (h : t.head = { op := .mapUpdate, sort })
    (hcs : t.children = [m, i, v]) (hi : i.op = .tuple) (E : Env S.Value) :
    S.values E t =
      [S.update i.children.length (S.values E m ++ (S.values E i ++ S.values E v))] := by
  rw [values_operator h (by simp), hcs]
  simp [result, Term.indexArity, hi]

theorem holds_var {n : String} (h : t.name? = some n) (E : Env S.Value) :
    S.Holds t E ↔ E.truth n := by
  rw [← holds_reading, Reading.holds_var h]

theorem holds_operator {op : Op} (h : t.head = { op, sort }) (hop : op ≠ .all) (E : Env S.Value) :
    S.Holds t E ↔
      S.states { op, sort } (t.children.map (S.Holds · E)) (t.children.flatMap (S.values E)) := by
  have hall : t.op ≠ .all := by rwa [Term.op, h]
  have hholds : t.children.map (S.reading.Holds · E) = t.children.map (S.Holds · E) :=
    map_congr_left fun c _ => propext (holds_reading c E)
  rw [← h, states_eq_ite, ← holds_reading]
  cases hconn : t.op.isConnective with
  | true =>
    rw [Reading.holds_connective hconn, hholds]
    exact iff_of_eq (if_pos hconn).symm
  | false =>
    rw [Reading.holds_atom (name?_of_head h) hall hconn, flatMap_values_reading]
    exact iff_of_eq (if_neg (Bool.not_eq_true _ ▸ hconn)).symm

theorem holds_all {b : Term} {vs : List Term} (hop : t.op = .all) (hcs : t.children = vs ++ [b])
    (E : Env S.Value) : S.Holds t E ↔ Env.ForAll (vs.filterMap Term.name?) (S.Holds b) E := by
  have hbody : S.reading.Holds b = S.Holds b := funext fun E => propext (holds_reading b E)
  rw [← holds_reading, Reading.holds_all hop, Term.boundNames_of_op_all hop, hcs,
    dropLast_concat, Reading.holdsLast_concat, hbody]

end Structure

end Vouch
