import Vouch.Lang.Command

/-!
# Programs

A procedure is a signature with a contract: what callers must establish, what
the procedure may change, and what it guarantees. A routine is code to be
verified; the procedure of the same name, if there is one, is its contract.

## Main definitions

* `Procedure`: A signature with its contract.
* `Routine`: Code to be verified.
* `Program`: Variables, functions, axioms, procedures and routines.
-/

namespace Vouch

/-- A declared function. -/
structure FunctionDecl where
  name : String
  args : List Ty := []
  result : Ty
deriving BEq, Inhabited

/-- A procedure signature with its contract. -/
structure Procedure where
  name : String
  args : List VarDecl := []
  results : List VarDecl := []
  requires : List Expr := []
  /-- The variables that may change, one list for each clause. -/
  modifies : List (List String) := []
  ensures : List Expr := []
deriving BEq, Inhabited

namespace Procedure

/-- Whether the contract says anything. -/
def hasContract (p : Procedure) : Bool :=
  !(p.requires.isEmpty && p.modifies.isEmpty && p.ensures.isEmpty)

end Procedure

/-- Code to be verified. -/
structure Routine where
  name : String
  args : List VarDecl := []
  results : List VarDecl := []
  locals : List VarDecl := []
  body : Body := []
  /-- Where the routine was declared, for reports. -/
  location : Option String := none
deriving BEq, Inhabited

namespace Routine

/-- Every variable the routine declares: arguments, results and locals. -/
def declared (r : Routine) : List VarDecl :=
  r.args ++ r.results ++ r.locals

end Routine

/-- A whole program. -/
structure Program where
  globals : List VarDecl := []
  functions : List FunctionDecl := []
  axioms : List Expr := []
  procedures : List Procedure := []
  routines : List Routine := []
deriving BEq, Inhabited

namespace Program

/-- The first procedure of that name. -/
def procedure? (p : Program) (name : String) : Option Procedure :=
  p.procedures.find? (·.name == name)

end Program

end Vouch
