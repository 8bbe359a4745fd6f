import Vouch.Lang.Ty
import Vouch.Names.FreshName
import Vouch.Names.NameMap
import Vouch.Names.NameSet

/-!
# Expressions

What asserts, assumes, assignments and contracts are made of.

Substitution replaces free variables by expressions, all at once. A quantifier
stops the replacement of the names it binds. If it binds a name that occurs
free in a replacement that does go below it, that binder is renamed first.

## Main definitions

* `Expr`: Expressions.
* `Expr.freeVars`: The free variables.
* `Expr.renameBinders`: Renames the binders that would capture.
* `Expr.subst`: Substitution.
-/

namespace Vouch

/-- Operators with one operand. -/
inductive UnOp where
  | neg
  | not
deriving DecidableEq, Inhabited

namespace UnOp

/-- The symbol of the operator. -/
def symbol : UnOp → String
  | neg => "-"
  | not => "!"

end UnOp

/-- Operators with two operands. -/
inductive BinOp where
  | add
  | sub
  | mul
  | div
  | mod
  | eq
  | neq
  | lt
  | le
  | gt
  | ge
  | and
  | or
  | implies
  | iff
deriving DecidableEq, Inhabited

namespace BinOp

/-- The symbol of the operator. -/
def symbol : BinOp → String
  | add => "+"
  | sub => "-"
  | mul => "*"
  | div => "/"
  | mod => "%"
  | eq => "=="
  | neq => "!="
  | lt => "<"
  | le => "<="
  | gt => ">"
  | ge => ">="
  | and => "&&"
  | or => "||"
  | implies => "==>"
  | iff => "<==>"

/-- Whether the result is a boolean. The others compute integers. -/
def isBoolean : BinOp → Bool
  | add | sub | mul | div | mod => false
  | _ => true

/-- Whether the operator compares values, as opposed to combining booleans or
    computing. -/
def isComparison : BinOp → Bool
  | eq | neq | lt | le | gt | ge => true
  | _ => false

end BinOp

/-- Expressions. -/
inductive Expr where
  | bool (value : Bool)
  | int (value : Int64)
  | var (name : String)
  | unary (op : UnOp) (operand : Expr)
  | binary (op : BinOp) (lhs rhs : Expr)
  /-- Application of a declared function. -/
  | app (function : String) (args : List Expr)
  /-- The value of a map at some indices. -/
  | select (map : Expr) (indices : List Expr)
  /-- A map changed at some indices. -/
  | update (map : Expr) (indices : List Expr) (value : Expr)
  /-- The body holds for all values of the variables. -/
  | all (vars : List VarDecl) (body : Expr)
deriving BEq, Inhabited

namespace Expr

/-- Negation of a boolean. -/
def not (e : Expr) : Expr := unary .not e

/-- Conjunction. -/
def and (l r : Expr) : Expr := binary .and l r

/-- Equality. -/
def eq (l r : Expr) : Expr := binary .eq l r

/-- Less than. -/
def lt (l r : Expr) : Expr := binary .lt l r

/-- Less than or equal. -/
def le (l r : Expr) : Expr := binary .le l r

/-- Sum. -/
def add (l r : Expr) : Expr := binary .add l r

mutual

/-- The text of an expression. Operators with two operands and quantifiers
    are always in parentheses. -/
def text : Expr → String
  | bool b => if b then "true" else "false"
  | int n => toString n.toInt
  | var name => name
  | unary op e => op.symbol ++ text e
  | binary op l r => "(" ++ text l ++ " " ++ op.symbol ++ " " ++ text r ++ ")"
  | app f args => f ++ "(" ++ ", ".intercalate (texts args) ++ ")"
  | select m idx => text m ++ "[" ++ ", ".intercalate (texts idx) ++ "]"
  | update m idx v => text m ++ "[" ++ ", ".intercalate (texts idx) ++ " := " ++ text v ++ "]"
  | all vars body =>
    "(forall " ++ ", ".intercalate (vars.map VarDecl.text) ++ " :: " ++ text body ++ ")"

/-- The texts of a list of expressions. -/
def texts : List Expr → List String
  | [] => []
  | e :: es => text e :: texts es

end

/-- Expressions separated by commas. -/
def listText (es : List Expr) : String :=
  ", ".intercalate (texts es)

mutual

/-- Add the free variables of an expression, `bound` being the names bound
    around it. -/
def addFree (bound : List String) : Expr → NameSet → NameSet
  | bool _, s => s
  | int _, s => s
  | var name, s => if bound.contains name then s else s.insert name
  | unary _ e, s => addFree bound e s
  | binary _ l r, s => addFree bound r (addFree bound l s)
  | app _ args, s => addFreeList bound args s
  | select m idx, s => addFreeList bound idx (addFree bound m s)
  | update m idx v, s => addFree bound v (addFreeList bound idx (addFree bound m s))
  | all vars body, s => addFree (bound ++ vars.map VarDecl.name) body s

/-- The same for a list of expressions. -/
def addFreeList (bound : List String) : List Expr → NameSet → NameSet
  | [], s => s
  | e :: es, s => addFreeList bound es (addFree bound e s)

end

/-- The free variables. -/
def freeVars (e : Expr) : NameSet :=
  addFree [] e ∅

mutual

/-- Add every name of a variable in the expression, bound or free. -/
def addNames : Expr → NameSet → NameSet
  | bool _, s => s
  | int _, s => s
  | var name, s => s.insert name
  | unary _ e, s => addNames e s
  | binary _ l r, s => addNames r (addNames l s)
  | app _ args, s => addNamesList args s
  | select m idx, s => addNamesList idx (addNames m s)
  | update m idx v, s => addNames v (addNamesList idx (addNames m s))
  | all vars body, s => addNames body (s.insertAll (vars.map VarDecl.name))

/-- The same for a list of expressions. -/
def addNamesList : List Expr → NameSet → NameSet
  | [], s => s
  | e :: es, s => addNamesList es (addNames e s)

end

/-- Every name of a variable in the expression, bound or free. -/
def names (e : Expr) : NameSet :=
  addNames e ∅

/-- The names that occur free in some replacement. -/
def incoming (σ : NameMap Expr) : List String :=
  σ.values.flatMap fun e => e.freeVars.toList

/-- Rename the binders that would capture an incoming name. `σ` grows by the
    renamings, and no new name is one of `taken`. -/
def renameBinders (incoming : List String) :
    List VarDecl → List String → NameMap Expr → List VarDecl × NameMap Expr
  | [], _, σ => ([], σ)
  | v :: vs, taken, σ =>
    if incoming.contains v.name then
      let name := freshNumbered v.name "$q" taken
      let (vs, σ) := renameBinders incoming vs (name :: taken) (σ.insert v.name (var name))
      ({ v with name } :: vs, σ)
    else
      let (vs, σ) := renameBinders incoming vs taken σ
      (v :: vs, σ)

mutual

/-- Replace free variables by expressions, renaming binders that would
    capture. -/
def subst (σ : NameMap Expr) : Expr → Expr
  | bool b => bool b
  | int n => int n
  | var name => (σ.find? name).getD (var name)
  | unary op e => unary op (subst σ e)
  | binary op l r => binary op (subst σ l) (subst σ r)
  | app f args => app f (substList σ args)
  | select m idx => select (subst σ m) (substList σ idx)
  | update m idx v => update (subst σ m) (substList σ idx) (subst σ v)
  | all vars body =>
    let inner := σ.eraseAll (vars.map VarDecl.name)
    let coming := incoming inner
    let taken := body.names.toList ++ coming ++ σ.keys
    let (vars, inner) := renameBinders coming vars taken inner
    all vars (subst inner body)

/-- The same for a list of expressions. -/
def substList (σ : NameMap Expr) : List Expr → List Expr
  | [] => []
  | e :: es => subst σ e :: substList σ es

end

end Expr

end Vouch
