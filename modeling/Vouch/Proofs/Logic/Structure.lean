import Vouch.Proofs.Term.Meaning
import Vouch.Term.Printer

/-!
# Structures

The prover knows no sorts: there is one set of values, a quantifier ranges over all of
them, and a symbol takes whatever stands behind it, so the indices of a map operation
are arguments like any others and their number is part of the symbol. Formulas are not
values.

## Main definitions

* `Structure`: What the symbols mean.
* `Structure.Holds`: A term holds as a formula.
* `Structure.Standard`: The symbols mean what the axioms say of them.

## Theorems

* `Structure.standard_trees`: There is such a structure, even though the laws of maps
  have to hold for values that are no maps and for all numbers of indices at once.
-/

namespace Vouch

open List

/-- What the symbols mean. -/
structure Structure where
  Value : Type
  bool : Bool → Value
  int : Int → Value
  less : Value → Value → Prop
  atMost : Value → Value → Prop
  /-- The symbols of operators and of declared functions. -/
  operator : Op → List Value → Value
  /-- Reading a map, one symbol for each number of indices. The map stands
      first among the arguments. -/
  select : Nat → List Value → Value
  /-- Changing a map. The map stands first among the arguments and the new value
      last. -/
  update : Nat → List Value → Value

/-- What names stand for, in the place of a value and in that of a formula. -/
structure Env (V : Type) where
  value : String → V
  truth : String → Prop

namespace Env

variable {V : Type}

/-- Another value for a name. -/
def set (E : Env V) (n : String) (v : V) : Env V :=
  { E with value := Function.update E.value n v }

/-- The statement holds for all values of the names. -/
def ForAll : List String → (Env V → Prop) → Env V → Prop
  | [], P, E => P E
  | n :: ns, P, E => ∀ v, ForAll ns P (E.set n v)

theorem forAll_of_forall {P : Env V → Prop} (h : ∀ E, P E) : ∀ (ns : List String) (E : Env V),
    ForAll ns P E
  | [], E => h E
  | n :: ns, E => fun v => forAll_of_forall h ns (E.set n v)

theorem exists_of_forAll {P : Env V → Prop} : ∀ {ns : List String} {E : Env V} (vs : List V),
    ForAll ns P E → ns.Nodup → vs.length = ns.length →
    ∃ E' : Env V, (∀ n ∉ ns, E'.value n = E.value n) ∧ ns.map E'.value = vs ∧ P E'
  | [], E, [], h, _, _ => ⟨E, fun _ _ => rfl, rfl, h⟩
  | n :: ns, E, v :: vs, h, hnodup, hlen => by
    rw [nodup_cons] at hnodup
    rcases exists_of_forAll vs (h v) hnodup.2 (Nat.succ.inj hlen) with ⟨E', hkeep, hvs, hP⟩
    refine ⟨E', fun m hm => ?_, ?_, hP⟩
    · rw [hkeep m (not_mem_of_not_mem_cons hm)]
      simp [set, ne_of_not_mem_cons hm]
    · rw [map_cons, hvs, hkeep n hnodup.1]
      simp [set]

end Env

namespace Structure

variable (S : Structure)

/-- The value of a literal. -/
def literal : Option Literal → S.Value
  | some (.int n) => S.int n
  | some (.bool b) => S.bool b
  | _ => S.bool true

/-- The value of a node from the values of its operands, given the number of
    indices for a map operation. Negation is subtraction from zero. -/
def result (h : Head) (indices : Nat) (vs : List S.Value) : S.Value :=
  match h.op with
  | .lit => S.literal h.payload
  | .neg => S.operator .sub (S.int 0 :: vs)
  | .mapSelect => S.select indices vs
  | .mapUpdate => S.update indices vs
  | op => S.operator op vs

/-- What a node states, from what its operands state and from their values. With
    the wrong number of operands it says nothing. -/
def states (h : Head) (ps : List Prop) (vs : List S.Value) : Prop :=
  match h.op, ps, vs with
  | .lit, _, _ => h.payload = some (.bool true)
  | .and, ps, _ => ∀ p ∈ ps, p
  | .or, ps, _ => ∃ p ∈ ps, p
  | .not, [p], _ => ¬ p
  | .implies, [p, q], _ => p → q
  | .iff, [p, q], _ => p ↔ q
  | .eq, _, [a, b] => a = b
  | .neq, _, [a, b] => a ≠ b
  | .distinct, _, vs => vs.Nodup
  | .lt, _, [a, b] => S.less a b
  | .le, _, [a, b] => S.atMost a b
  | _, _, _ => True

mutual

/-- The values that a term contributes to the arguments it stands among. A list
    of indices contributes all of them. -/
def values (E : Env S.Value) : Term → List S.Value
  | .node _ h cs _ =>
    match h.op, h.payload with
    | .var, some (.name n) => [E.value n]
    -- Indices are spliced in, so a map symbol has one arity for each number of them.
    | .tuple, _ => valuesAll E cs
    | _, _ => [S.result h (Term.indexArity cs) (valuesAll E cs)]

/-- The values of a list of operands. -/
def valuesAll (E : Env S.Value) : List Term → List S.Value
  | [] => []
  | t :: ts => values E t ++ valuesAll E ts

end

mutual

/-- The term holds as a formula. -/
def Holds : Term → Env S.Value → Prop
  | .node id h cs as, E =>
    match h.op, h.payload with
    | .var, some (.name n) => E.truth n
    | .all, _ => Env.ForAll (Term.node id h cs as).boundNames (HoldsLast cs) E
    | _, _ => S.states h (truths cs E) (S.valuesAll E cs)

/-- Whether each of a list of operands holds. -/
def truths : List Term → Env S.Value → List Prop
  | [], _ => []
  | t :: ts, E => Holds t E :: truths ts E

/-- The last of a list of operands holds, the body of a quantifier. -/
def HoldsLast : List Term → Env S.Value → Prop
  | [], _ => True
  | t :: ts, E => if ts.isEmpty then Holds t E else HoldsLast ts E

end

variable {S}

/-- An updated map of some number of indices has the new value where it was
    updated. -/
def ReadsBack (S : Structure) (n : Nat) : Prop :=
  ∀ m is v, is.length = n → S.select n (S.update n (m :: (is ++ [v])) :: is) = v

/-- Everywhere else it has what the old map has. -/
def KeepsOthers (S : Structure) (n : Nat) : Prop :=
  ∀ m is js v, is.length = n → js.length = n → is ≠ js →
    S.select n (S.update n (m :: (is ++ [v])) :: js) = S.select n (m :: js)

/-- The symbols mean what the axioms say of them. The truth values differ from
    each other and from the integers, on which order and arithmetic are the usual
    ones. The laws of the truth values of atoms, of nand and of maps are for all
    values, whatever they are. -/
structure Standard (S : Structure) : Prop where
  true_ne_false : S.bool true ≠ S.bool false
  int_injective : Function.Injective S.int
  int_ne_bool : ∀ n b, S.int n ≠ S.bool b
  less_int : ∀ m n, S.less (S.int m) (S.int n) ↔ m < n
  atMost_int : ∀ m n, S.atMost (S.int m) (S.int n) ↔ m ≤ n
  add_int : ∀ m n, S.operator .add [S.int m, S.int n] = S.int (m + n)
  sub_int : ∀ m n, S.operator .sub [S.int m, S.int n] = S.int (m - n)
  mul_int : ∀ m n, S.operator .mul [S.int m, S.int n] = S.int (m * n)
  tlt : ∀ a b, S.operator .tlt [a, b] = S.bool true ↔ S.less a b
  teq : ∀ op ∈ [Op.teq, .teqInt, .teqBool], ∀ a b, S.operator op [a, b] = S.bool true ↔ a = b
  tnand : ∀ a b, S.operator .tnand [a, b] = S.bool true ↔ ¬ (a = S.bool true ∧ b = S.bool true)
  select_update : ∀ m is v, S.select is.length (S.update is.length (m :: (is ++ [v])) :: is) = v
  select_update_of_ne : ∀ m is js v, js.length = is.length → is ≠ js →
    S.select is.length (S.update is.length (m :: (is ++ [v])) :: js) = S.select is.length (m :: js)

theorem Standard.readsBack (hS : S.Standard) (n : Nat) : S.ReadsBack n := by
  rintro m is v rfl
  exact hS.select_update m is v

theorem Standard.keepsOthers (hS : S.Standard) (n : Nat) : S.KeepsOthers n := by
  rintro m is js v rfl hlen hne
  exact hS.select_update_of_ne m is js v hlen hne

open Classical in
/-- Values that remember how they were built. A map is the updates that made it,
    and what is no map has been updated nowhere. -/
noncomputable def trees : Structure where
  Value := Tree
  bool := .bool
  int := .int
  less a b := a.toInt < b.toInt
  atMost a b := a.toInt ≤ b.toInt
  operator
    | .tlt, [a, b] => .bool (a.toInt < b.toInt)
    | .teq, [a, b] => .bool (a = b)
    | .teqInt, [a, b] => .bool (a = b)
    | .teqBool, [a, b] => .bool (a = b)
    | .tnand, [a, b] => .bool ¬ (a = .bool true ∧ b = .bool true)
    | .add, [a, b] => .int (a.toInt + b.toInt)
    | .sub, [a, b] => .int (a.toInt - b.toInt)
    | .mul, [a, b] => .int (a.toInt * b.toInt)
    | _, vs => .tuple vs
  select
    | _, m :: is => m.read (.tuple is)
    | _, [] => .tuple []
  update
    | _, m :: rest => .update m (.tuple rest.dropLast) (rest.getLastD m)
    | _, [] => .tuple []

theorem update_trees (k : Nat) (m : trees.Value) (is : List trees.Value) (v : trees.Value) :
    trees.update k (m :: (is ++ [v])) = Tree.update m (.tuple is) v := by
  change Tree.update m (.tuple (is ++ [v]).dropLast) ((is ++ [v]).getLastD m) = _
  rw [dropLast_concat, getLastD_concat]

/-- Maps are the trees of their updates, so the laws hold for all numbers of indices. -/
theorem standard_trees : trees.Standard where
  true_ne_false := by simp [trees]
  int_injective := fun _ _ h => Tree.int.inj h
  int_ne_bool := by simp [trees]
  less_int _ _ := Iff.rfl
  atMost_int _ _ := Iff.rfl
  add_int _ _ := rfl
  sub_int _ _ := rfl
  mul_int _ _ := rfl
  tlt a b := by simp [trees]
  teq op hop a b := by
    simp only [mem_cons, not_mem_nil, or_false] at hop
    rcases hop with rfl | rfl | rfl <;> simp [trees]
  tnand a b := by simp [trees]
  select_update m is v := by
    rw [update_trees]
    exact Tree.read_update m (.tuple is) v
  select_update_of_ne m is js v _ hne := by
    -- The indices of an update are kept as one tuple, and tuples differ if lists do.
    rw [update_trees]
    exact Tree.read_update_of_ne (fun h => hne (Tree.tuple.inj h)) m v

end Structure

end Vouch
