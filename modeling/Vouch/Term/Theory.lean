import Vouch.Term.Printer

/-!
# Background Theories and Term Constructors

An operator means something only together with the axioms that describe it. A theory has
schemas that look at the operands of a node about to be built and give the axioms to
attach to it.

## Main definitions

* `Theory`: Which axioms come with which operator.
* `Theory.make`: Builds a node with the axioms of its operator.
-/

namespace Vouch

/-- The axioms to attach to a node, given its operands. -/
abbrev Schema := List Term → Fresh (List Term)

/-- Which axioms come with which operator. -/
structure Theory where
  /-- At most one schema for each operator. -/
  schemas : List (Op × Schema) := []
  /-- The axioms of truth values. -/
  literalAxioms : List Term := []
deriving Inhabited

namespace Theory

/-- The theory without axioms. -/
def empty : Theory := {}

/-- Give an operator a schema, replacing the one it had. -/
def register (th : Theory) (op : Op) (schema : Schema) : Theory :=
  { th with schemas := (op, schema) :: th.schemas.filter (·.1 != op) }

/-- Whether an operator has a schema. -/
def hasAxioms (th : Theory) (op : Op) : Bool :=
  (th.schemas.lookup op).isSome

/-- Build a node with the axioms of its operator. -/
def make (th : Theory) (op : Op) (sort : TermSort) (children : List Term) : Fresh Term := do
  let axioms ← match th.schemas.lookup op with
    | some schema => schema children
    | none => pure []
  Term.make { op, sort } children axioms

/-- A truth value, with the axioms of truth values. -/
def boolLit (th : Theory) (value : Bool) : Fresh Term :=
  Term.make { op := .lit, sort := .bool, payload := some (.bool value) } [] th.literalAxioms

/-- Conjunction. Operands that always hold are dropped. -/
def and (th : Theory) (ts : List Term) : Fresh Term :=
  match ts.filter (!·.isTrue) with
  | [] => Term.formula true
  | [t] => pure t
  | ts => th.make .and .formula ts

/-- Disjunction. Operands that never hold are dropped. -/
def or (th : Theory) (ts : List Term) : Fresh Term :=
  match ts.filter (!·.isFalse) with
  | [] => Term.formula false
  | [t] => pure t
  | ts => th.make .or .formula ts

/-- Negation. -/
def not (th : Theory) (t : Term) : Fresh Term :=
  th.make .not .formula [t]

/-- Implication. It is its conclusion if either side always holds. -/
def implies (th : Theory) (lhs rhs : Term) : Fresh Term :=
  if lhs.isTrue || rhs.isTrue then pure rhs
  else th.make .implies .formula [lhs, rhs]

/-- Equivalence of formulas. -/
def iff (th : Theory) (lhs rhs : Term) : Fresh Term :=
  th.make .iff .formula [lhs, rhs]

/-- Equality of values. -/
def eq (th : Theory) (lhs rhs : Term) : Fresh Term :=
  th.make .eq .formula [lhs, rhs]

/-- Inequality of values. -/
def neq (th : Theory) (lhs rhs : Term) : Fresh Term :=
  th.make .neq .formula [lhs, rhs]

/-- Pairwise inequality of values. -/
def distinct (th : Theory) (ts : List Term) : Fresh Term :=
  th.make .distinct .formula ts

/-- Less than. -/
def lt (th : Theory) (lhs rhs : Term) : Fresh Term :=
  th.make .lt .formula [lhs, rhs]

/-- Less than or equal. -/
def le (th : Theory) (lhs rhs : Term) : Fresh Term :=
  th.make .le .formula [lhs, rhs]

/-- Quantification. Without variables it is the body. -/
def all (th : Theory) (vars : List Term) (body : Term) : Fresh Term :=
  if vars.isEmpty then pure body
  else th.make .all .formula (vars ++ [body])

/-- The definition of the left side: an equivalence for formulas, an equality
    for values. -/
def define (th : Theory) (lhs rhs : Term) : Fresh Term :=
  if rhs.sort.isFormula then th.iff lhs rhs else th.eq lhs rhs

/-- Application of a declared function. -/
def app (th : Theory) (function : String) (sort : TermSort) (args : List Term) : Fresh Term :=
  th.make (.app function) sort args

/-- A list of map indices. -/
def tuple (th : Theory) (items : List Term) : Fresh Term :=
  th.make .tuple .value items

/-- The value of a map at some indices. -/
def select (th : Theory) (map : Term) (indices : List Term) (sort : TermSort) : Fresh Term := do
  let index ← th.tuple indices
  th.make .mapSelect sort [map, index]

/-- A map changed at some indices. -/
def update (th : Theory) (map : Term) (indices : List Term) (value : Term) : Fresh Term := do
  let index ← th.tuple indices
  th.make .mapUpdate .value [map, index, value]

/-- The truth value of `not (lhs and rhs)`. -/
def tnand (th : Theory) (lhs rhs : Term) : Fresh Term :=
  th.make .tnand .bool [lhs, rhs]

/-- The truth value of a negation. -/
def tnot (th : Theory) (t : Term) : Fresh Term :=
  th.tnand t t

/-- The truth value of a conjunction. -/
def tand (th : Theory) (lhs rhs : Term) : Fresh Term := do
  th.tnot (← th.tnand lhs rhs)

/-- The truth value of a disjunction. -/
def tor (th : Theory) (lhs rhs : Term) : Fresh Term := do
  let notLhs ← th.tnot lhs
  let notRhs ← th.tnot rhs
  th.tnand notLhs notRhs

/-- The truth value of an implication. -/
def timplies (th : Theory) (lhs rhs : Term) : Fresh Term := do
  th.tnand lhs (← th.tnot rhs)

end Theory

end Vouch
