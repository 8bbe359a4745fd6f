import Vouch.Condition.Encode
import Vouch.Flow.Order
import Vouch.Term.Subst
import Vouch.Text.Blank

/-!
# Verification Conditions

The condition of a body over an acyclic flow graph, computed in one of two directions.
Backwards, a node gets what its successors need, transformed by its command. Forwards,
it gets what leaves its predecessors, and each assertion owes that it follows from that.

## Main definitions

* `Condition.weakest`: What the entry needs so that nothing fails.
* `Condition.strongest`: What all assertions owe.
* `Condition.compute`: The condition by the one or the other method.
-/

namespace Vouch

/-- The direction in which a condition is computed. -/
inductive Method where
  /-- Weakest preconditions, from the exits back. -/
  | wp
  /-- Strongest postconditions, from the entry on. -/
  | sp
deriving DecidableEq, Inhabited

namespace Method

/-- The name of the method. -/
def name : Method → String
  | wp => "wp"
  | sp => "sp"

/-- The method of that name, in capital or small letters. No character outside
    ASCII has a letter of a method's name as its lower case. -/
def ofName? (s : String) : Option Method :=
  [wp, sp].find? (·.name == Text.asciiLower s)

/-- What to say about a name that is no method's. -/
def unknownMessage (s : String) : String :=
  "Unknown VC method: " ++ s ++ ". Valid options: wp, sp"

end Method

/-- How a condition is computed. -/
structure ConditionStyle where
  method : Method := .wp
  /-- Whether what was asserted may be assumed afterwards. -/
  assumeAsserts : Bool := false
deriving DecidableEq, Inhabited

/-- The nodes described so far. -/
structure Descriptions where
  /-- The states that arrive at a node. -/
  arrivals : List (Nat × Term) := []
  /-- The states that leave a node. -/
  departures : List (Nat × Term) := []
  /-- What the assertions owe. -/
  obligations : List Term := []

/-- What computing a condition depends on. -/
structure Condition extends Encoding, ConditionStyle

namespace Condition

variable (c : Condition)

/-- Substitute new versions for variables. -/
def versions (vars : List String) : Encode Subst :=
  vars.foldlM (fun σ v => do
    let ty ← c.variableType v
    let version ← c.freshVariable v ty
    return σ.insertAll (version.entries v)) ∅

/-- The condition computed for a node. The nodes before it in the order have
    theirs already. -/
def lookup (table : List (Nat × Term)) (v : Nat) : Encode Term :=
  match table.lookup v with
  | some t => return t
  | none => Term.formula true

/-- Substitute an expression for a variable, on the sides it has. -/
def assignment (var : String) (e : Expr) : Encode (List (String × Term)) := do
  let ty ← c.variableType var
  let value ← c.term e
  if ty.isBool then
    let formula ← c.formula e
    return [(valueName var, value), (var, formula)]
  else
    return [(valueName var, value)]

/-- What must hold before an action so that `post` holds after it. -/
def weakestBefore (post : Term) : Action → Encode Term
  | .assert e => do
    let condition ← c.formula e
    let rest ← if c.assumeAsserts then c.theory.implies condition post else pure post
    c.theory.and [condition, rest]
  | .assume e => do c.theory.implies (← c.formula e) post
  | .assign pairs => do
    let σ ← pairs.foldlM (fun σ (v, e) => do return σ.insertAll (← c.assignment v e)) (∅ : Subst)
    post.subst σ
  | .havoc vars => do post.subst (← c.versions vars)
  | .goto _ | .skip => return post
  | .call site => throw (.remainingCall site.callee)

/-- Give one more node its weakest condition. Its successors have theirs
    already. -/
def weakestStep (body : Body) (g : FlowGraph) (table : List (Nat × Term)) (v : Nat) :
    Encode (List (Nat × Term)) := do
  let post ← c.theory.and (← (g.successors v).mapM (lookup table))
  let pre ← match body[v]? with
    | some command => c.weakestBefore post command.action
    | none => pure post
  return (v, pre) :: table

/-- The weakest condition of the entry under which nothing fails. -/
def weakest (body : Body) (g : FlowGraph) (order : List Nat) : Encode Term := do
  let table ← order.reverse.foldlM (c.weakestStep body g) []
  match g.entry with
  | some v => lookup table v
  | none => Term.formula true

/-- The equation between a variable's new value and an expression over the old
    ones. -/
def newValue (old : Subst) (var : String) (e : Expr) : Encode Term := do
  let ty ← c.variableType var
  let current ← c.varTerms var ty
  let equation ← match current.formula with
    | some f => do c.theory.iff f (← c.formula e)
    | none => do c.theory.eq current.term (← c.term e)
  match equation.children with
  | [lhs, rhs] => do equation.withChildren [lhs, ← rhs.subst old]
  | _ => return equation

/-- What holds after an action if `pre` holds before it. -/
def strongestAfter (pre : Term) : Action → Encode Term
  | .assert e => do
    if c.assumeAsserts then c.theory.and [pre, ← c.formula e] else return pre
  | .assume e => do c.theory.and [pre, ← c.formula e]
  | .assign pairs => do
    let old ← c.versions (pairs.map (·.1))
    let before ← pre.subst old
    let equations ← pairs.mapM fun (v, e) => c.newValue old v e
    c.theory.and (before :: equations)
  | .havoc vars => do pre.subst (← c.versions vars)
  | .goto _ | .skip => return pre
  | .call site => throw (.remainingCall site.callee)

/-- What an action owes in the states described by `pre`. -/
def owed (pre : Term) : Action → Encode (List Term)
  | .assert e => do return [← c.theory.implies pre (← c.formula e)]
  | _ => return []

/-- The states that arrive at a node: all of them at the entry, and elsewhere
    what leaves its predecessors. -/
def arrival (g : FlowGraph) (departures : List (Nat × Term)) (v : Nat) : Encode Term := do
  if g.entry = some v then Term.formula true
  else c.theory.or (← (g.predecessors v).mapM (lookup departures))

/-- Describe one more node. Its predecessors are described already. -/
def describe (body : Body) (g : FlowGraph) (d : Descriptions) (v : Nat) : Encode Descriptions := do
  let pre ← c.arrival g d.departures v
  let arrivals := (v, pre) :: d.arrivals
  match body[v]? with
  | some command =>
    let new ← c.owed pre command.action
    let post ← c.strongestAfter pre command.action
    return { arrivals, departures := (v, post) :: d.departures, obligations := d.obligations ++ new }
  | none =>
    return { arrivals, departures := (v, pre) :: d.departures, obligations := d.obligations }

/-- Describe all nodes. -/
def descriptions (body : Body) (g : FlowGraph) (order : List Nat) : Encode Descriptions :=
  order.foldlM (c.describe body g) {}

/-- The conjunction of what all assertions owe. -/
def strongest (body : Body) (g : FlowGraph) (order : List Nat) : Encode Term := do
  let d ← c.descriptions body g order
  c.theory.and d.obligations

/-- The verification condition of a body over an acyclic graph. The name only
    serves to report errors. -/
def compute (name : String) (body : Body) (g : FlowGraph) : Encode Term := do
  if g.size ≠ body.length then throw (.graphMismatch g.size body.length)
  match g.topologicalOrder? with
  | none => throw (.cyclicFlowGraph name)
  | some order =>
    match c.method with
    | .wp => c.weakest body g order
    | .sp => c.strongest body g order

end Condition

end Vouch
