import Vouch.Lang.Program

/-!
# Scopes

What the names in a routine refer to. The variables of a routine hide the global ones,
and of two declarations of one name the later counts.

Types of expressions are found without checking them.

## Main definitions

* `Scope`: The declarations in force.
* `Scope.infer`: The type of an expression under quantified variables.
-/

namespace Vouch

/-- The declarations in force. -/
structure Scope where
  globals : NameMap Ty := ∅
  functions : NameMap FunctionDecl := ∅
  procedures : NameMap Procedure := ∅
  locals : NameMap Ty := ∅
deriving Inhabited

namespace Scope

/-- Declare a procedure. -/
def addProcedure (s : Scope) (p : Procedure) : Scope :=
  { s with procedures := s.procedures.insert p.name p }

/-- The declarations of a program. -/
def ofProgram (p : Program) : Scope where
  globals := .ofList (p.globals.map fun v => (v.name, v.ty))
  functions := .ofList (p.functions.map fun f => (f.name, f))
  procedures := .ofList (p.procedures.map fun q => (q.name, q))

/-- The declarations inside a routine. -/
def enter (s : Scope) (r : Routine) : Scope :=
  { s with locals := .ofList (r.declared.map fun v => (v.name, v.ty)) }

/-- Declare one more local variable. -/
def declare (s : Scope) (name : String) (ty : Ty) : Scope :=
  { s with locals := s.locals.insert name ty }

/-- The type of a variable. -/
def varType? (s : Scope) (name : String) : Option Ty :=
  (s.locals.find? name).orElse fun _ => s.globals.find? name

/-- The declaration of a function. -/
def function? (s : Scope) (name : String) : Option FunctionDecl :=
  s.functions.find? name

/-- The signature of a procedure. -/
def procedure? (s : Scope) (name : String) : Option Procedure :=
  s.procedures.find? name

/-- The type a quantifier gives to a name, the innermost one counting. The
    bound variables are listed from the outermost to the innermost. -/
def boundType? (bound : List (String × Ty)) (name : String) : Option Ty :=
  bound.reverse.lookup name

/-- The type of an expression under quantified variables. -/
def infer (s : Scope) (bound : List (String × Ty)) : Expr → Option Ty
  | .bool _ => some .bool
  | .int _ => some .int
  | .var name => (boundType? bound name).orElse fun _ => s.varType? name
  | .unary .neg _ => some .int
  | .unary .not _ => some .bool
  | .binary op _ _ => some (if op.isBoolean then .bool else .int)
  | .app f _ => (s.function? f).map (·.result)
  | .select m _ =>
    match s.infer bound m with
    | some (.map _ element) => some element
    | _ => none
  | .update m _ _ => s.infer bound m
  | .all _ _ => some .bool

/-- The type of an expression. -/
def typeOf (s : Scope) (e : Expr) : Option Ty :=
  s.infer [] e

end Scope

end Vouch
