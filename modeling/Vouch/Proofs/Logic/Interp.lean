import Mathlib.Logic.Function.Basic
import Vouch.Lang.Expr
import Vouch.Term.Basic

/-!
# Standard Interpretations

An interpretation has one set of values for all sorts. Declared functions, map reads and
division are left open, so a statement about every interpretation makes no promise about
them beyond the sort of what they give and the two laws of map update.

## Main definitions

* `Carrier`: Values with the truth values and the integers among them.
* `Interp`: A standard interpretation.
* `Interp.apply`: What the operators of terms mean.
* `Interp.trees`: An interpretation by values that remember how they were built.

## Theorems

* `Carrier.eq_of_holds_iff`: A truth value is known by whether it holds.
-/

namespace Vouch

/-- Values for names. -/
abbrev Assignment (V : Type) := String → V

/-- A set of values with the truth values and the integers in it. -/
structure Carrier where
  Value : Type
  bool : Bool → Value
  int : Int → Value
  /-- The integer a value stands for, arbitrary if it is none. -/
  toInt : Value → Int
  true_ne_false : bool true ≠ bool false
  toInt_int : ∀ n, toInt (int n) = n

namespace Carrier

variable (C : Carrier)

/-- The values of a sort. Formulas have truth values. -/
def Dom : TermSort → C.Value → Prop
  | .formula, v => ∃ b, v = C.bool b
  | .bool, v => ∃ b, v = C.bool b
  | .int, v => ∃ n, v = C.int n
  | .value, _ => True

/-- The value is the true one. -/
def Holds (v : C.Value) : Prop :=
  v = C.bool true

open Classical in
/-- The truth value of a statement. -/
noncomputable def truth (p : Prop) : C.Value :=
  C.bool (decide p)

@[simp]
theorem holds_bool (b : Bool) : C.Holds (C.bool b) ↔ b = true := by
  cases b with
  | true => simp [Holds]
  | false => simpa [Holds] using C.true_ne_false.symm

@[simp]
theorem holds_truth (p : Prop) : C.Holds (C.truth p) ↔ p := by
  simp [truth]

theorem dom_truth (p : Prop) : C.Dom .bool (C.truth p) :=
  ⟨_, rfl⟩

/-- A truth value is known by whether it holds. -/
theorem eq_of_holds_iff {v w : C.Value} (hv : C.Dom .bool v) (hw : C.Dom .bool w)
    (h : C.Holds v ↔ C.Holds w) : v = w := by
  rcases hv with ⟨a, rfl⟩
  rcases hw with ⟨b, rfl⟩
  rw [holds_bool, holds_bool, ← Bool.eq_iff_iff] at h
  rw [h]

/-- The statement holds for all values of the names, each from its sort. -/
def ForAll : List (String × TermSort) → (Assignment C.Value → Prop) → Assignment C.Value → Prop
  | [], P, ρ => P ρ
  | (n, s) :: bs, P, ρ => ∀ v, C.Dom s v → ForAll bs P (Function.update ρ n v)

end Carrier

/-- A standard interpretation. -/
structure Interp extends Carrier where
  /-- The list of some indices as one value. -/
  tuple : List Value → Value
  /-- What a map has at an index, read at a sort. -/
  select : TermSort → Value → Value → Value
  update : Value → Value → Value → Value
  function : String → TermSort → List Value → Value
  div : Int → Int → Int
  mod : Int → Int → Int
  tuple_injective : Function.Injective tuple
  dom_select : ∀ s m i, toCarrier.Dom s (select s m i)
  select_update : ∀ {s v}, toCarrier.Dom s v → ∀ m i, select s (update m i v) i = v
  select_update_of_ne : ∀ {i j}, i ≠ j → ∀ s m v, select s (update m i v) j = select s m j
  dom_function : ∀ f s vs, toCarrier.Dom s (function f s vs)

namespace Interp

variable (I : Interp)

/-- The value of a literal. -/
def literal : Option Literal → I.Value
  | some (.int n) => I.int n
  | some (.bool b) => I.bool b
  | _ => I.bool true

/-- The operators of terms. Variables and quantifiers are not among them, and
    an operator with the wrong number of operands says nothing. -/
noncomputable def apply (h : Head) (args : List I.Value) : I.Value :=
  match h.op, args with
  | .lit, _ => I.literal h.payload
  | .and, vs => I.truth (∀ v ∈ vs, I.Holds v)
  | .or, vs => I.truth (∃ v ∈ vs, I.Holds v)
  | .not, [a] => I.truth (¬ I.Holds a)
  | .implies, [a, b] => I.truth (I.Holds a → I.Holds b)
  | .iff, [a, b] => I.truth (I.Holds a ↔ I.Holds b)
  | .eq, [a, b] => I.truth (a = b)
  | .teq, [a, b] => I.truth (a = b)
  | .teqInt, [a, b] => I.truth (a = b)
  | .teqBool, [a, b] => I.truth (a = b)
  | .neq, [a, b] => I.truth (a ≠ b)
  | .distinct, vs => I.truth vs.Nodup
  | .lt, [a, b] => I.truth (I.toInt a < I.toInt b)
  | .tlt, [a, b] => I.truth (I.toInt a < I.toInt b)
  | .le, [a, b] => I.truth (I.toInt a ≤ I.toInt b)
  | .tnand, [a, b] => I.truth (¬ (I.Holds a ∧ I.Holds b))
  | .add, [a, b] => I.int (I.toInt a + I.toInt b)
  | .sub, [a, b] => I.int (I.toInt a - I.toInt b)
  | .mul, [a, b] => I.int (I.toInt a * I.toInt b)
  | .div, [a, b] => I.int (I.div (I.toInt a) (I.toInt b))
  | .mod, [a, b] => I.int (I.mod (I.toInt a) (I.toInt b))
  | .neg, [a] => I.int (- I.toInt a)
  | .mapSelect, [m, i] => I.select h.sort m i
  | .mapUpdate, [m, i, v] => I.update m i v
  | .tuple, vs => I.tuple vs
  | .app f, vs => I.function f h.sort vs
  | _, _ => I.bool true

/-- The operators of expressions. -/
noncomputable def binary : BinOp → I.Value → I.Value → I.Value
  | .and, a, b => I.truth (I.Holds a ∧ I.Holds b)
  | .or, a, b => I.truth (I.Holds a ∨ I.Holds b)
  | .implies, a, b => I.truth (I.Holds a → I.Holds b)
  | .iff, a, b => I.truth (I.Holds a ↔ I.Holds b)
  | .eq, a, b => I.truth (a = b)
  | .neq, a, b => I.truth (a ≠ b)
  | .lt, a, b => I.truth (I.toInt a < I.toInt b)
  | .le, a, b => I.truth (I.toInt a ≤ I.toInt b)
  | .gt, a, b => I.truth (I.toInt b < I.toInt a)
  | .ge, a, b => I.truth (I.toInt b ≤ I.toInt a)
  | .add, a, b => I.int (I.toInt a + I.toInt b)
  | .sub, a, b => I.int (I.toInt a - I.toInt b)
  | .mul, a, b => I.int (I.toInt a * I.toInt b)
  | .div, a, b => I.int (I.div (I.toInt a) (I.toInt b))
  | .mod, a, b => I.int (I.mod (I.toInt a) (I.toInt b))

end Interp

/-- Values that remember how they were built. -/
inductive Tree where
  | bool (value : Bool)
  | int (value : Int)
  | tuple (items : List Tree)
  | update (map index value : Tree)

namespace Tree

/-- The integer a value stands for. -/
def toInt : Tree → Int
  | int n => n
  | _ => 0

/-- The trees as a set of values. -/
def carrier : Carrier where
  Value := Tree
  bool := bool
  int := int
  toInt := toInt
  true_ne_false := by simp
  toInt_int := fun _ => rfl

/-- A value of a sort, the given one if it belongs to the sort. -/
def cast : TermSort → Tree → Tree
  | .formula, bool b => bool b
  | .formula, _ => bool true
  | .bool, bool b => bool b
  | .bool, _ => bool true
  | .int, int n => int n
  | .int, _ => int 0
  | .value, v => v

theorem dom_cast (s : TermSort) (v : Tree) : carrier.Dom s (cast s v) := by
  cases s <;> cases v <;> simp [carrier, Carrier.Dom, cast]

theorem cast_of_dom {s : TermSort} {v : Tree} (h : carrier.Dom s v) : cast s v = v := by
  cases s with
  | value => rfl
  | int =>
    rcases h with ⟨n, rfl⟩
    rfl
  | bool | formula =>
    rcases h with ⟨b, rfl⟩
    rfl

open Classical in
/-- What a map has at an index: what the latest update there put. -/
noncomputable def read : Tree → Tree → Tree
  | update m i v, j => if i = j then v else read m j
  | _, _ => bool true

theorem read_update (m i v : Tree) : read (update m i v) i = v := by
  rw [read, if_pos rfl]

theorem read_update_of_ne {i j : Tree} (h : i ≠ j) (m v : Tree) :
    read (update m i v) j = read m j := by
  rw [read, if_neg h]

end Tree

/-- Maps are the updates that built them, and functions are constant. -/
noncomputable def Interp.trees : Interp where
  toCarrier := Tree.carrier
  tuple := Tree.tuple
  select s m i := Tree.cast s (Tree.read m i)
  update := Tree.update
  function _ s _ := Tree.cast s (Tree.bool true)
  div := Int.ediv
  mod := Int.emod
  tuple_injective := fun _ _ h => Tree.tuple.inj h
  dom_select := fun s m i => Tree.dom_cast s (Tree.read m i)
  select_update := fun {s} {v} hv m i =>
    (congrArg (Tree.cast s) (Tree.read_update m i v)).trans (Tree.cast_of_dom hv)
  select_update_of_ne := fun h s m v => congrArg (Tree.cast s) (Tree.read_update_of_ne h m v)
  dom_function := fun _ s _ => Tree.dom_cast s _

end Vouch
