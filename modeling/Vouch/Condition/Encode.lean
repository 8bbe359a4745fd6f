import Vouch.Condition.Error
import Vouch.Lang.Scope
import Vouch.Term.Background

/-!
# Encoding Expressions

Every expression has two encodings. On the formula side it becomes something the prover
can assert; on the value side it becomes something that can be passed to a function,
stored in a map, or compared.

## Main definitions

* `Encoder`: The state of encoding.
* `Encoding.varTerms`: The terms standing for a variable.
* `Encoding.encode`: The encoding of an expression on a side.
-/

namespace Vouch

namespace Ty

/-- The sort of the values of a type. -/
def sort : Ty → TermSort
  | int => .int
  | bool => .bool
  | map _ _ => .value
  | named _ => .value

end Ty

/-- The name of the value of a variable. -/
def valueName (name : String) : String :=
  valueMark ++ name

/-- The terms standing for a variable. -/
structure VarTerms where
  /-- Its value. -/
  term : Term
  /-- Its formula, for booleans. -/
  formula : Option Term := none

namespace VarTerms

/-- What to substitute for a variable to get this one: the value, and for
    booleans the formula. -/
def entries (name : String) (v : VarTerms) : List (String × Term) :=
  (valueName name, v.term) :: (v.formula.map ((name, ·))).toList

end VarTerms

/-- The state of encoding. -/
structure Encoder where
  supply : Supply := {}
  /-- The boolean variables met so far. -/
  pairs : NameMap VarTerms := ∅

/-- Computations that encode. What they made stays made if they fail. -/
abbrev Encode := ExceptT ConditionError (StateM Encoder)

namespace Encode

/-- Make terms while encoding. -/
def fresh {α : Type} (build : Fresh α) : Encode α :=
  fun e =>
    let (a, supply) := build e.supply
    (.ok a, { e with supply })

instance : MonadLift Fresh Encode := ⟨fresh⟩

/-- Encode from a supply, with no variables met before. -/
def runFresh {α : Type} (m : Encode α) : Fresh (Except ConditionError α) := do
  let (result, e) := m.run.run { supply := ← get }
  set e.supply
  return result

end Encode

/-- The two encodings of an expression. -/
inductive Side where
  | formula
  | value
deriving DecidableEq

/-- What encoding depends on: the axioms of the operators and the declarations
    in force. -/
structure Encoding where
  theory : Theory
  scope : Scope

namespace Encoding

variable (c : Encoding)

/-- The declared type of a variable. -/
def variableType (name : String) : Encode Ty :=
  match c.scope.varType? name with
  | some ty => return ty
  | none => throw (.unknownVariable name)

/-- Make the formula and the value of a boolean variable, linked by an axiom. -/
def linkedPair (name : String) : Fresh VarTerms := do
  let formula ← Term.var name .formula
  let plain ← Term.var (valueName name) .bool
  let link ← c.theory.iff formula (← c.theory.eq plain (← c.theory.boolLit true))
  let head : Head := { op := .var, sort := .bool, payload := some (.name (valueName name)) }
  return { term := ← Term.make head [] [link], formula := some formula }

/-- The terms standing for a variable of a type. -/
def varTerms (name : String) (ty : Ty) : Encode VarTerms := do
  if ty.isBool then
    match (← getThe Encoder).pairs.find? name with
    | some pair => return pair
    | none =>
      let pair ← c.linkedPair name
      modifyThe Encoder fun e => { e with pairs := e.pairs.insert name pair }
      return pair
  else
    return { term := ← Term.var (valueName name) ty.sort }

/-- The terms standing for a new version of a variable. -/
def freshVariable (name : String) (ty : Ty) : Encode VarTerms := do
  let version ← Fresh.name name
  c.varTerms version ty

/-- A value on the wanted side. -/
def onSide (side : Side) (value : Term) : Fresh Term := do
  match side with
  | .value => return value
  | .formula => c.theory.eq value (← c.theory.boolLit true)

/-- A variable. Bound variables exist as values only. -/
def encodeVar (side : Side) (bound : List (String × Ty)) (name : String) : Encode Term := do
  match Scope.boundType? bound name with
  | some ty => c.onSide side (← Term.var (valueName name) ty.sort)
  | none =>
    let ty ← c.variableType name
    let terms ← c.varTerms name ty
    match side, terms.formula with
    | .formula, some formula => return formula
    | _, _ => c.onSide side terms.term

/-- The sort of an expression, arbitrary values if it has no type. -/
def sortOf (bound : List (String × Ty)) (e : Expr) : TermSort :=
  ((c.scope.infer bound e).map Ty.sort).getD .value

/-- The type of two operands that are compared: that of the first one that has
    a type. -/
def operandType (bound : List (String × Ty)) (l r : Expr) : Option Ty :=
  (c.scope.infer bound l).orElse fun _ => c.scope.infer bound r

/-- The operator that compares values of a type. -/
def equalityOp : Option Ty → Op
  | some .int => .teqInt
  | some .bool => .teqBool
  | _ => .teq

/-- An operator with two operands as a formula, `type` being the type of the
    operands and `l` and `r` their encodings. Booleans are compared as formulas,
    everything else as values. -/
def binaryFormula (op : BinOp) (type : Option Ty) (illTyped : ConditionError)
    (l r : Side → Encode Term) : Encode Term := do
  match op with
  | .and => c.theory.and [← l .formula, ← r .formula]
  | .or => c.theory.or [← l .formula, ← r .formula]
  | .implies => c.theory.implies (← l .formula) (← r .formula)
  | .iff => c.theory.iff (← l .formula) (← r .formula)
  | .eq => equal
  | .neq => c.theory.not (← equal)
  | .lt => c.theory.lt (← l .value) (← r .value)
  | .le => c.theory.le (← l .value) (← r .value)
  | .gt => c.theory.lt (← r .value) (← l .value)
  | .ge => c.theory.le (← r .value) (← l .value)
  | .add | .sub | .mul | .div | .mod => throw illTyped
where
  /-- Both operands are the same. -/
  equal : Encode Term := do
    if type matches some .bool then c.theory.iff (← l .formula) (← r .formula)
    else c.theory.eq (← l .value) (← r .value)

/-- An operator with two operands as a value. -/
def binaryValue (op : BinOp) (type : Option Ty) (l r : Encode Term) : Encode Term := do
  match op with
  | .and => c.theory.tand (← l) (← r)
  | .or => c.theory.tor (← l) (← r)
  | .implies => c.theory.timplies (← l) (← r)
  | .iff => c.theory.make .teqBool .bool [← l, ← r]
  | .eq => c.theory.make (equalityOp type) .bool [← l, ← r]
  | .neq => c.theory.tnot (← c.theory.make (equalityOp type) .bool [← l, ← r])
  | .lt => c.theory.make .tlt .bool [← l, ← r]
  | .gt => c.theory.make .tlt .bool [← r, ← l]
  | .le => c.theory.tnot (← c.theory.make .tlt .bool [← r, ← l])
  | .ge => c.theory.tnot (← c.theory.make .tlt .bool [← l, ← r])
  | .add => c.theory.make .add .int [← l, ← r]
  | .sub => c.theory.make .sub .int [← l, ← r]
  | .mul => c.theory.make .mul .int [← l, ← r]
  | .div => c.theory.make .div .int [← l, ← r]
  | .mod => c.theory.make .mod .int [← l, ← r]

mutual

/-- The encoding of an expression on a side, `bound` being the quantified
    variables around it, outermost first. -/
def encode (side : Side) (bound : List (String × Ty)) : Expr → Encode Term
  | .bool b =>
    match side with
    | .formula => Term.formula b
    | .value => c.theory.boolLit b
  | .int n =>
    match side with
    | .formula => throw (.illTyped (Expr.int n).text)
    | .value => Term.int n.toInt
  | .var name => c.encodeVar side bound name
  | .unary .neg e =>
    match side with
    | .formula => throw (.illTyped (Expr.unary .neg e).text)
    | .value => do c.theory.make .neg .int [← encode .value bound e]
  | .unary .not e =>
    match side with
    | .formula => do c.theory.not (← encode .formula bound e)
    | .value => do c.theory.tnot (← encode .value bound e)
  | .binary op l r =>
    let type := c.operandType bound l r
    match side with
    | .formula =>
      c.binaryFormula op type (.illTyped (Expr.binary op l r).text)
        (encode · bound l) (encode · bound r)
    | .value => c.binaryValue op type (encode .value bound l) (encode .value bound r)
  | .app f args => do
    let sort := c.sortOf bound (.app f args)
    let args ← encodeAll bound args
    c.onSide side (← c.theory.app f sort args)
  | .select m idx => do
    let sort := c.sortOf bound (.select m idx)
    let m ← encode .value bound m
    let idx ← encodeAll bound idx
    c.onSide side (← c.theory.select m idx sort)
  | .update m idx v => do
    let m ← encode .value bound m
    let idx ← encodeAll bound idx
    let v ← encode .value bound v
    c.onSide side (← c.theory.update m idx v)
  | .all vars body =>
    match side with
    | .value => throw (.quantifierInTerm (Expr.all vars body).text)
    | .formula => do
      let binders ← vars.mapM fun v => Term.var (valueName v.name) v.ty.sort
      let body ← encode .formula (bound ++ vars.map fun v => (v.name, v.ty)) body
      c.theory.all binders body

/-- The values of a list of expressions. -/
def encodeAll (bound : List (String × Ty)) : List Expr → Encode (List Term)
  | [] => return []
  | e :: es => do
    let t ← encode .value bound e
    let ts ← encodeAll bound es
    return t :: ts

end

/-- The formula of a boolean expression. -/
def formula (e : Expr) : Encode Term :=
  c.encode .formula [] e

/-- The value of an expression. -/
def term (e : Expr) : Encode Term :=
  c.encode .value [] e

end Encoding

end Vouch
