import Vouch.Term.Theory

/-!
# The Standard Theory

A formula holds or does not; a truth value is an object that can be stored in a map. The
standard theory connects the two, and has the two axioms of arrays. Each axiom is built
in a family of node identities of its own, which makes it a constant.

## Main definitions

* `Theory.reflectAxiom`: The axiom of an operator on truth values.
* `Theory.mapUpdateAxioms`: The axioms of map updates.
* `Theory.standard`: The standard theory.
-/

namespace Vouch

namespace Term

/-- A node built without consulting a theory. -/
def plain (op : Op) (sort : TermSort) (children : List Term) : Fresh Term :=
  make { op, sort } children

/-- A quantified formula, built without consulting a theory. -/
def plainAll (vars : List Term) (body : Term) : Fresh Term :=
  plain .all .formula (vars ++ [body])

/-- A map read at some indices, built without consulting a theory. -/
def plainSelect (map : Term) (indices : List Term) : Fresh Term := do
  plain .mapSelect .value [map, ← plain .tuple .value indices]

/-- The formula that a truth value is the true one. -/
def holds (t : Term) : Fresh Term := do
  plain .eq .formula [t, ← boolLit true]

end Term

namespace Theory

open Term (plain plainAll plainSelect holds)

/-- Build the nodes of one family from its beginning. -/
def inFamily {α : Type} (family : Nat) (build : Fresh α) : α :=
  (build.run { family }).1

/-- The value of `op` is true exactly when `atom` holds. -/
def reflectAxiom (op atom : Op) : Fresh Term := do
  let a ← Term.var "a" .value
  let b ← Term.var "b" .value
  let lhs ← holds (← plain op .bool [a, b])
  let rhs ← plain atom .formula [a, b]
  plainAll [a, b] (← plain .iff .formula [lhs, rhs])

/-- The value of nand is true exactly when not both operands are. -/
def nandAxiom : Fresh Term := do
  let a ← Term.var "a" .bool
  let b ← Term.var "b" .bool
  let lhs ← holds (← plain .tnand .bool [a, b])
  let both ← plain .and .formula [← holds a, ← holds b]
  let rhs ← plain .not .formula [both]
  plainAll [a, b] (← plain .iff .formula [lhs, rhs])

/-- The two truth values differ. -/
def literalAxiom : Fresh Term := do
  plain .neq .formula [← Term.boolLit true, ← Term.boolLit false]

/-- Index variables `x0`, `x1`, … -/
def indexVars (base : String) (arity : Nat) : Fresh (List Term) :=
  (List.range arity).mapM fun k => Term.var (base ++ toString k) .value

/-- Reading an updated map with `arity` indices: at the updated position it
    gives the new value, and wherever some index differs it gives what the old
    map has there. -/
def mapUpdateAxioms (arity : Nat) : Fresh (List Term) := do
  let m ← Term.var "m" .value
  let v ← Term.var "v" .value
  let is ← indexVars "i" arity
  let js ← indexVars "j" arity
  let index ← plain .tuple .value is
  let updated ← plain .mapUpdate .value [m, index, v]
  let readBack ← plainSelect updated is
  let same ← plainAll (m :: v :: is) (← plain .eq .formula [readBack, v])
  let differences ← (is.zip js).mapM fun (i, j) => plain .neq .formula [i, j]
  let differs ← plain .or .formula differences
  let readOther ← plainSelect updated js
  let readOld ← plainSelect m js
  let unchanged ← plain .eq .formula [readOther, readOld]
  let other ← plainAll (m :: v :: (is ++ js))
    (← plain .implies .formula [differs, unchanged])
  return [same, other]

/-- The schema that gives the same axioms to every node. -/
def always (axioms : List Term) : Schema :=
  fun _ => pure axioms

/-- The axioms of map update, by the number of indices. A map operation has at
    least one index. -/
def mapUpdateSchema : Schema :=
  fun children =>
    let arity := max (Term.indexArity children) 1
    pure (inFamily (6 + arity) (mapUpdateAxioms arity))

/-- The axioms of truth values and of map update. -/
def standard : Theory where
  schemas := [
    (.tlt, always [inFamily 1 (reflectAxiom .tlt .lt)]),
    (.teq, always [inFamily 2 (reflectAxiom .teq .eq)]),
    (.teqInt, always [inFamily 3 (reflectAxiom .teqInt .eq)]),
    (.teqBool, always [inFamily 4 (reflectAxiom .teqBool .eq)]),
    (.tnand, always [inFamily 5 nandAxiom]),
    (.mapUpdate, mapUpdateSchema)]
  literalAxioms := [inFamily 6 literalAxiom]

end Theory

end Vouch
