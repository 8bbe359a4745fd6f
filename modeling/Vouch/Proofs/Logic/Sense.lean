import Vouch.Proofs.Term.Layers

/-!
# Terms as the Prover Reads Them

The prover reads what it is sent by position. Where it expects a value it takes
whatever stands there for one, a formula too, and where it expects a formula it
takes a value to say that it is the true one. Of a structure nothing is asked but that
subtracting from zero gives the negative numbers, which have no numerals.

## Main definitions

* `Structure.wire`: A structure as the prover reads terms.
* `Sense`: What the prover makes of a term.
* `Term.sense`: It is composed as the term is, and sorts do not matter.

## Theorems

* `Structure.holds_wire`: For stratified formulas the position makes no difference.
-/

namespace Vouch

open List Term Reading

namespace Structure

/-- Subtraction from zero gives the negative numbers. -/
def Subtracts (S : Structure) : Prop :=
  ∀ n : Nat, S.operator .sub [S.int 0, S.int n] = S.int (-n)

/-- The value of a node. A formula in the place of a value is a symbol like others,
    apart from those without operands, which are truth values. -/
def wireResult (S : Structure) (h : Head) (indices : Nat) (vs : List S.Value) : S.Value :=
  match h.op, vs with
  | .and, [] => S.bool true
  | .or, [] => S.bool false
  | .all, _ => S.bool true
  | _, _ => S.result h indices vs

/-- What a node states that is not a connective. A value in the place of a formula
    states that it is the true one. -/
def wireStates (S : Structure) (h : Head) (indices : Nat) (vs : List S.Value) : Prop :=
  match h.op with
  | .eq | .neq | .distinct | .lt | .le | .var => S.states h [] vs
  | .lit =>
    if h.sort.isFormula then h.payload = some (.bool true)
    else S.literal h.payload = S.bool true
  | _ => S.wireResult h indices vs = S.bool true

theorem wireStates_true (S : Structure) (indices : Nat) (vs : List S.Value) :
    S.wireStates { op := .lit, sort := .formula, payload := some (.bool true) } indices vs :=
  rfl

theorem wireStates_eq (S : Structure) (indices : Nat) (a b : S.Value) :
    S.wireStates { op := .eq, sort := .formula } indices [a, b] ↔ a = b :=
  Iff.rfl

/-- A structure as the prover reads terms, wherever they stand. -/
abbrev wire (S : Structure) : Reading where
  Value := S.Value
  result := S.wireResult
  states := S.wireStates
  states_true := S.wireStates_true
  states_eq := S.wireStates_eq

theorem wireResult_congr (S : Structure) {h : Head} (hlit : h.op ≠ .lit) {k k' : Nat}
    (hk : h.op = .mapSelect ∨ h.op = .mapUpdate → k = k') (vs : List S.Value) :
    S.wireResult h k vs = S.wireResult { op := h.op, sort := .value } k' vs := by
  obtain ⟨op, sort, payload⟩ := h
  cases op with
  | lit => exact absurd rfl hlit
  | and | or => cases vs <;> rfl
  | mapSelect => rw [hk (.inl rfl)]; rfl
  | mapUpdate => rw [hk (.inr rfl)]; rfl
  | _ => rfl

theorem wireStates_congr (S : Structure) {h : Head} (hlit : h.op ≠ .lit) {k k' : Nat}
    (hk : h.op = .mapSelect ∨ h.op = .mapUpdate → k = k') (vs : List S.Value) :
    S.wireStates h k vs ↔ S.wireStates { op := h.op, sort := .value } k' vs := by
  have hresult := S.wireResult_congr hlit hk vs
  obtain ⟨op, sort, payload⟩ := h
  cases op with
  | lit => exact absurd rfl hlit
  | eq | neq | lt | le => rcases vs with _ | ⟨a, _ | ⟨b, _ | _⟩⟩ <;> exact Iff.rfl
  | distinct | var => exact Iff.rfl
  | _ => exact iff_of_eq (congrArg (· = S.bool true) hresult)

end Structure

/-- What the prover makes of a term: the free names, and in every structure the values
    and what is stated. -/
structure Sense where
  free : String → Prop
  values : ∀ S : Structure, S.Subtracts → Env S.wire.Value → List S.wire.Value
  holds : ∀ S : Structure, S.Subtracts → Env S.wire.Value → Prop

namespace Sense

theorem ext {m m' : Sense} (hfree : ∀ n, m.free n ↔ m'.free n)
    (hvalues : ∀ S hS E, m.values S hS E = m'.values S hS E)
    (hholds : ∀ S hS E, m.holds S hS E ↔ m'.holds S hS E) : m = m' := by
  obtain ⟨free, values, holds⟩ := m
  obtain rfl : free = m'.free := funext fun n => propext (hfree n)
  obtain rfl : values = m'.values := funext fun S => funext fun hS => funext (hvalues S hS)
  obtain rfl : holds = m'.holds :=
    funext fun S => funext fun hS => funext fun E => propext (hholds S hS E)
  rfl

/-- A name. -/
def var (n : String) : Sense where
  free := (· = n)
  values _ _ E := [E.value n]
  holds _ _ E := E.truth n

/-- A literal, which may be a formula. -/
def literal (isFormula : Bool) (l : Literal) : Sense where
  free _ := False
  values S _ _ := [S.literal (some l)]
  holds S _ _ := if isFormula then l = .bool true else S.literal (some l) = S.bool true

/-- An operator on operands. The number of indices matters for map operations only. -/
def apply (op : Op) (indices : Nat) (ms : List Sense) : Sense where
  free n := ∃ m ∈ ms, m.free n
  values S hS E :=
    if op = .tuple then ms.flatMap (·.values S hS E)
    else [S.wireResult { op, sort := .value } indices (ms.flatMap (·.values S hS E))]
  holds S hS E :=
    if op.isConnective then op.joins (ms.map (·.holds S hS E))
    else S.wireStates { op, sort := .value } indices (ms.flatMap (·.values S hS E))

/-- A quantifier. -/
def quantify (names : List String) (m : Sense) : Sense where
  free n := n ∉ names ∧ m.free n
  values S _ _ := [S.bool true]
  holds S hS E := Env.ForAll names (m.holds S hS) E

theorem apply_nil (b : Bool) (k : Nat) :
    apply (if b then .and else .or) k [] = literal true (.bool b) := by
  cases b <;> refine ext (by simp [apply, literal]) (fun _ _ _ => rfl) ?_ <;>
    simp [apply, literal, Op.isConnective, Op.joins]

theorem apply_neg (k : Nat) (ms : List Sense) :
    apply .neg k ms = apply .sub k (literal false (.int 0) :: ms) :=
  ext (by simp [apply, literal]) (fun _ _ _ => rfl) fun _ _ _ => Iff.rfl

theorem literal_neg (n k : Nat) : literal false (.int (-n)) =
    apply .sub k [literal false (.int 0), literal false (.int n)] := by
  refine ext (by simp [apply, literal]) (fun S hS _ => ?_) fun S hS _ => ?_
  · exact congrArg (fun v => [v]) (hS n).symm
  · exact iff_of_eq (congrArg (· = S.bool true) (hS n).symm)

theorem apply_tuple {op : Op} (hop : op = .mapSelect ∨ op = .mapUpdate) (k j : Nat) (m : Sense)
    (is ms : List Sense) :
    apply op k (m :: apply .tuple j is :: ms) = apply op k (m :: (is ++ ms)) := by
  rcases hop with rfl | rfl <;>
    exact ext (by simp [apply, or_and_right, exists_or]) (by simp [apply])
      (by simp [apply, Op.isConnective])

end Sense

namespace Term

variable {t : Term}

/-- What the prover makes of the term. -/
def sense (t : Term) : Sense where
  free := (Free · t)
  values S _ E := S.wire.values E t
  holds S _ E := S.wire.Holds t E

theorem sense_var {n : String} (h : t.name? = some n) : t.sense = .var n :=
  Sense.ext (fun _ => free_var h) (fun _ _ => values_var h) fun _ _ => holds_var h

theorem sense_literal {sort : TermSort} {l : Literal}
    (h : t.head = { op := .lit, sort, payload := some l }) (hcs : t.children = []) :
    t.sense = .literal sort.isFormula l := by
  have hop : t.op = .lit := congrArg Head.op h
  have hname : t.name? = none := name?_of_op_ne (by simp [hop])
  refine Sense.ext (fun n => ?_) (fun S _ E => ?_) fun S _ E => ?_
  · simp [sense, Sense.literal, free_operand hname (by simp [hop]), hcs]
  · refine (values_operator hname (by simp [hop]) E).trans ?_
    rw [h]
    rfl
  · refine (holds_atom hname (by simp [hop]) (by rw [hop]; rfl) E).trans ?_
    simp [h, Structure.wireStates, Sense.literal]

theorem sense_operator (hvar : t.op ≠ .var) (hlit : t.op ≠ .lit) (hall : t.op ≠ .all) {k : Nat}
    (hk : t.op = .mapSelect ∨ t.op = .mapUpdate → indexArity t.children = k) :
    t.sense = .apply t.op k (t.children.map sense) := by
  have hname : t.name? = none := name?_of_op_ne hvar
  have hvalues : ∀ (S : Structure) (hS : S.Subtracts) (E : Env S.wire.Value),
      (t.children.map sense).flatMap (·.values S hS E) = t.children.flatMap (S.wire.values E) :=
    fun _ _ _ => flatMap_map ..
  refine Sense.ext (fun n => ?_) (fun S hS E => ?_) fun S hS E => ?_
  · simp [sense, Sense.apply, free_operand hname hall]
  · by_cases htuple : t.op = .tuple
    · simp only [Sense.apply, if_pos htuple, hvalues]
      exact values_tuple htuple E
    · simp only [Sense.apply, if_neg htuple, hvalues]
      exact (values_operator hname htuple E).trans
        (congrArg (fun v => [v]) (S.wireResult_congr hlit hk _))
  · cases hconn : t.op.isConnective with
    | true =>
      simp only [Sense.apply, hconn, if_true, map_map]
      exact holds_connective hconn E
    | false =>
      simp only [Sense.apply, hconn, hvalues, Bool.false_eq_true, if_false]
      exact (holds_atom hname hall hconn E).trans (S.wireStates_congr hlit hk _)

theorem sense_quantifier {vs : List Term} {b : Term} (hop : t.op = .all)
    (hcs : t.children = vs ++ [b]) : t.sense = .quantify (vs.filterMap name?) b.sense := by
  have hbound : t.boundNames = vs.filterMap name? := by
    rw [boundNames_of_op_all hop, hcs, dropLast_concat]
  have hhead : t.head.op = .all := hop
  refine Sense.ext (fun n => ?_) (fun S _ E => ?_) fun S _ E => ?_
  · rw [← hbound]
    exact free_all hop (by rw [hcs, getLast?_concat])
  · refine (values_operator (name?_of_op_all hop) (by simp [hop]) E).trans ?_
    simp [Sense.quantify, Structure.wireResult, hhead]
  · refine (holds_all hop E).trans ?_
    rw [hbound, hcs, holdsLast_concat]
    rfl

end Term

/-! ### In the layers -/

theorem Structure.Standard.subtracts {S : Structure} (h : S.Standard) : S.Subtracts := by
  intro n
  rw [h.sub_int, Int.zero_sub]

theorem Op.joins_of_takes {op : Op} {ls : List Layer} (h : op.takes ls = true)
    (hmem : Layer.formula ∈ ls) : op.isConnective = true ∨ op = .all := by
  cases hk : op.operands? with
  | some k =>
    have hformula := (Op.takes_of_operands? hk).mp h _ hmem
    subst hformula
    cases op <;> first | exact .inl rfl | cases hk
  | none =>
    cases op with
    | all => exact .inr rfl
    | mapSelect | mapUpdate =>
      simp only [takes, operands?, beq_iff_eq] at h
      simp [h] at hmem
    | var | lit =>
      simp only [takes, operands?, List.isEmpty_iff] at h
      simp [h] at hmem
    | _ => cases hk

theorem Op.layer?_of_joins {op : Op} (h : op.isConnective = true ∨ op = .all) :
    op.layer? = some .formula := by
  rcases h with h | rfl
  · cases op <;> first | rfl | cases h
  · rfl

namespace Structure

variable {S : Structure} {t : Term}

theorem values_wire (ht : Stratified t) (hl : t.layer ≠ .formula) (E : Env S.Value) :
    S.wire.values E t = S.reading.values E t := by
  induction t using Term.induction with
  | step t ih =>
    have hlayer : ¬ (t.op.isConnective = true ∨ t.op = .all) :=
      fun h => hl (ht.layered.made _ (Op.layer?_of_joins h))
    have hcs : t.children.flatMap (S.wire.values E) = t.children.flatMap (S.reading.values E) := by
      refine congrArg List.flatten (map_congr_left fun c hc => ?_)
      exact ih c hc (ht.operand hc) fun hformula => hlayer
        (Op.joins_of_takes ht.layered.operands (hformula ▸ mem_map_of_mem hc))
    by_cases htuple : t.op = .tuple
    · rw [Reading.values_tuple htuple, Reading.values_tuple htuple, hcs]
    cases hname : t.name? with
    | some n => rw [Reading.values_var hname, Reading.values_var hname]
    | none =>
      rw [Reading.values_operator hname htuple, Reading.values_operator hname htuple, hcs]
      refine congrArg (fun v => [v]) ?_
      change S.wireResult t.head _ _ = S.result t.head _ _
      unfold wireResult
      split
      · next h _ => exact (hlayer (.inl (congrArg Op.isConnective h))).elim
      · next h _ => exact (hlayer (.inl (congrArg Op.isConnective h))).elim
      · next h => exact (hlayer (.inr h)).elim
      · rfl

/-- Where formulas stand for formulas, reading by position changes nothing. -/
theorem holds_wire (ht : Stratified t) (hl : t.layer = .formula) : ∀ E : Env S.Value,
    S.wire.Holds t E ↔ S.Holds t E := by
  suffices h : ∀ E : Env S.Value, S.wire.Holds t E ↔ S.reading.Holds t E from
    fun E => (h E).trans (holds_reading t E)
  induction t using Term.induction with
  | step t ih =>
    intro E
    by_cases hall : t.op = .all
    · rcases ht.layered.quantifier hall with ⟨_, b, hb, hformula⟩
      have hbt := mem_of_getLast? hb
      have hlast : S.wire.HoldsLast t.children = S.reading.HoldsLast t.children := by
        rw [← dropLast_append_getLast? b hb, holdsLast_concat,
          holdsLast_concat]
        exact funext fun E' => propext (ih b hbt (ht.operand hbt) hformula E')
      rw [Reading.holds_all hall, Reading.holds_all hall, hlast]
    by_cases hconn : t.op.isConnective = true
    · have hk : t.op.operands? = some .formula := by
        cases hop : t.op <;> rw [hop] at hconn <;> first | rfl | cases hconn
      have hcs : t.children.map (S.wire.Holds · E) = t.children.map (S.reading.Holds · E) := by
        refine map_congr_left fun c hc => propext (ih c hc (ht.operand hc) ?_ E)
        exact (Op.takes_of_operands? hk).mp ht.layered.operands _ (mem_map_of_mem hc)
      rw [holds_connective hconn, holds_connective hconn, hcs]
    cases hname : t.name? with
    | some n => rw [Reading.holds_var hname, Reading.holds_var hname]
    | none =>
      have hvalues : t.children.flatMap (S.wire.values E) =
          t.children.flatMap (S.reading.values E) := by
        refine congrArg List.flatten (map_congr_left fun c hc => ?_)
        refine values_wire (ht.operand hc) (fun hformula => ?_) E
        exact (Op.joins_of_takes ht.layered.operands
          (hformula ▸ mem_map_of_mem hc)).elim hconn hall
      -- Of the other operators only atoms and literals make formulas.
      rw [Bool.not_eq_true] at hconn
      rw [holds_atom hname hall hconn, holds_atom hname hall hconn, hvalues]
      have hmade := ht.layered.made
      obtain ⟨id, ⟨op, sort, payload⟩, cs, as⟩ := t
      cases op with
      | and | or | not | implies | iff => cases hconn
      | all => exact absurd rfl hall
      | eq | neq | lt | le | distinct | var => exact Iff.rfl
      | lit =>
        have hsort : sort.isFormula = true := by
          by_contra hsort
          change (if sort.isFormula = true then Layer.formula else Layer.value) = _ at hl
          rw [if_neg hsort] at hl
          cases hl
        change (if sort.isFormula = true then _ else _) ↔ _
        rw [if_pos hsort]
        rfl
      | _ =>
        rw [hmade _ rfl] at hl
        cases hl

end Structure

end Vouch
