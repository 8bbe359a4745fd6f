import Std.Data.TreeMap
import Std.Data.TreeSet

/-!
# Prover Terms

Terms are graphs with sharing, not trees: the same node may be an operand in many
places, and two nodes that print alike may still be different. Everything else about a
term is plain tree structure, which is what recursion and meaning are defined on.

## Main definitions

* `Term`: A node with its operands and its axioms.
* `Supply`: Where identities and generated names come from.
* `Fresh`: Computations that make nodes and names.
* `Term.withChildren`: A node with other operands.
-/

namespace Vouch

/-- Sorts of the prover's logic. Formulas are what can be asserted; the other
    sorts are values. -/
inductive TermSort where
  | formula
  | bool
  | int
  | value
deriving DecidableEq, Inhabited

namespace TermSort

/-- Whether terms of this sort can be asserted. -/
def isFormula (s : TermSort) : Bool :=
  s == formula

/-- Whether terms of this sort are values. -/
def isValue (s : TermSort) : Bool :=
  !s.isFormula

/-- The name of the sort. -/
def name : TermSort → String
  | formula => "formula"
  | bool => "bool"
  | int => "int"
  | value => "value"

/-- The sort of that name. -/
def ofName? (s : String) : Option TermSort :=
  [formula, bool, int, value].find? (·.name == s)

end TermSort

/-- Operators. The connectives and atoms build formulas, the rest build
    values; `tnand`, `tlt` and the `teq` operators are boolean *values*. -/
inductive Op where
  | and
  | or
  | not
  | implies
  | iff
  /-- The operands are the bound variables followed by the body. -/
  | all
  | eq
  | neq
  | distinct
  | lt
  | le
  /-- The value of `not (a and b)`, from which every connective on values is
      derived. -/
  | tnand
  | tlt
  | teq
  | teqInt
  | teqBool
  | add
  | sub
  | mul
  | div
  | mod
  | neg
  | mapSelect
  | mapUpdate
  /-- A list of map indices. -/
  | tuple
  | app (function : String)
  | var
  | lit
deriving DecidableEq, Inhabited

namespace Op

/-- Variables and literals. -/
def isLeaf : Op → Bool
  | var | lit => true
  | _ => false

/-- The operators other than functions, by name. -/
def named : List (String × Op) :=
  [("and", and), ("or", or), ("not", not), ("implies", implies), ("iff", iff), ("forall", all),
    ("eq", eq), ("neq", neq), ("distinct", distinct), ("lt", lt), ("le", le), ("tnand", tnand),
    ("tlt", tlt), ("teq", teq), ("teq_int", teqInt), ("teq_bool", teqBool), ("add", add),
    ("sub", sub), ("mul", mul), ("div", div), ("mod", mod), ("neg", neg),
    ("map_select", mapSelect), ("map_update", mapUpdate), ("tuple", tuple), ("var", var),
    ("lit", lit)]

end Op

/-- What a variable or literal stands for. -/
inductive Literal where
  | name (text : String)
  | int (value : Int)
  | bool (value : Bool)
deriving DecidableEq, Inhabited

/-- A node without its identity and its subterms. -/
structure Head where
  op : Op
  sort : TermSort
  payload : Option Literal := none
deriving DecidableEq, Inhabited

/-- Identity of a node. -/
structure NodeId where
  /-- The family of nodes this one belongs to. -/
  family : Nat
  /-- Its number within the family. -/
  index : Nat
deriving DecidableEq, Inhabited

namespace NodeId

instance : Ord NodeId :=
  ⟨compareLex (compareOn NodeId.family) (compareOn NodeId.index)⟩

instance : Std.TransOrd NodeId :=
  inferInstanceAs (Std.TransCmp (compareLex (compareOn NodeId.family) (compareOn NodeId.index)))

instance : Std.LawfulEqOrd NodeId where
  eq_of_compare {a b} h := by
    have h : (compareLex (compareOn NodeId.family) (compareOn NodeId.index)) a b = .eq := h
    simp only [compareLex, compareOn, Ordering.then_eq_eq, Nat.compare_eq_eq] at h
    obtain ⟨fa, ia⟩ := a
    obtain ⟨fb, ib⟩ := b
    simp_all

end NodeId

/-- A table indexed by nodes. -/
abbrev NodeMap (α : Type) := Std.TreeMap NodeId α

/-- A set of nodes. -/
abbrev NodeSet := Std.TreeSet NodeId

/-- A prover term. -/
inductive Term where
  /-- A node with its operands and the axioms that must hold wherever the
      node is used. -/
  | node (id : NodeId) (head : Head) (children axioms : List Term)
deriving Inhabited

namespace Term

/-- The identity of the node. -/
def ident : Term → NodeId
  | node i _ _ _ => i

/-- The node without identity and subterms. -/
def head : Term → Head
  | node _ h _ _ => h

/-- The operands. -/
def children : Term → List Term
  | node _ _ cs _ => cs

/-- The attached axioms. -/
def axioms : Term → List Term
  | node _ _ _ as => as

/-- The operator. -/
def op (t : Term) : Op :=
  t.head.op

/-- The sort. -/
def sort (t : Term) : TermSort :=
  t.head.sort

/-- The literal data. -/
def payload (t : Term) : Option Literal :=
  t.head.payload

/-- Whether two terms are the same node. -/
def same (a b : Term) : Bool :=
  a.ident == b.ident

/-- The name of a variable. -/
def name? (t : Term) : Option String :=
  match t.op, t.payload with
  | .var, some (.name n) => some n
  | _, _ => none

/-- Whether this is the formula that always holds. -/
def isTrue (t : Term) : Bool :=
  t.head == { op := .lit, sort := .formula, payload := some (.bool true) }

/-- Whether this is the formula that never holds. -/
def isFalse (t : Term) : Bool :=
  t.head == { op := .lit, sort := .formula, payload := some (.bool false) }

/-- The names a quantifier binds; other nodes bind none. -/
def boundNames (t : Term) : List String :=
  match t.op with
  | .all => t.children.dropLast.filterMap name?
  | _ => []

end Term

/-- Where identities and generated names come from. -/
structure Supply where
  /-- The family whose nodes this supply makes. -/
  family : Nat := 0
  /-- The index of the next node. -/
  nextNode : Nat := 0
  /-- The number in the next generated name. -/
  nextName : Nat := 0
deriving Inhabited

/-- Computations that make nodes and names. -/
abbrev Fresh := StateM Supply

namespace Fresh

/-- A generated name: the base followed by a number not used before. -/
def name (base : String) : Fresh String := do
  let s ← get
  set { s with nextName := s.nextName + 1 }
  return base ++ "$$" ++ toString s.nextName

end Fresh

namespace Term

/-- Make a new node. -/
def make (head : Head) (children : List Term := []) (axioms : List Term := []) : Fresh Term := do
  let s ← get
  set { s with nextNode := s.nextNode + 1 }
  return node ⟨s.family, s.nextNode⟩ head children axioms

/-- Make a variable. -/
def var (name : String) (sort : TermSort) : Fresh Term :=
  make { op := .var, sort, payload := some (.name name) }

/-- Make an integer literal. -/
def int (value : Int) : Fresh Term :=
  make { op := .lit, sort := .int, payload := some (.int value) }

/-- Make the formula that always or never holds. -/
def formula (value : Bool) : Fresh Term :=
  make { op := .lit, sort := .formula, payload := some (.bool value) }

/-- Make a truth value. -/
def boolLit (value : Bool) : Fresh Term :=
  make { op := .lit, sort := .bool, payload := some (.bool value) }

/-- Make a variable with a generated name. -/
def freshVar (base : String) (sort : TermSort) : Fresh Term := do
  var (← Fresh.name base) sort

/-- Replace the operands. A node whose operands are all kept is itself kept,
    so that untouched parts of a term stay shared. -/
def withChildren (t : Term) (children : List Term) : Fresh Term :=
  if children.map ident == t.children.map ident then return t
  else make t.head children t.axioms

end Term

end Vouch
