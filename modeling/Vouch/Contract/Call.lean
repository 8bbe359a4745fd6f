import Vouch.Lang.Frame

/-!
# Calls by Contract

A call is verified against the callee's contract, not its code: `call w := p(v)` becomes
`assert P(v); havoc H; assume Q(v, w)`. The formal parameters are replaced by the actual
ones, and of one that is both a result and an argument, the argument counts.

## Main definitions

* `Procedure.expandCall`: The commands standing for a call.
* `Scope.expandCalls`: A body without calls.
-/

namespace Vouch

/-- The two lists of parameters of a procedure. -/
inductive ParamKind where
  | arguments
  | results
deriving DecidableEq

namespace ParamKind

/-- The name of the list. -/
def name : ParamKind → String
  | arguments => "arguments"
  | results => "results"

end ParamKind

/-- Why a contract does not fit. -/
inductive ContractError where
  | unknownCallee (name : String)
  | arityMismatch (callee : String) (kind : ParamKind) (expected found : Nat)
deriving DecidableEq

namespace ContractError

/-- What is wrong. -/
def message : ContractError → String
  | unknownCallee name => "call to undeclared procedure `" ++ name ++ "`"
  | arityMismatch callee kind expected found =>
    "`" ++ callee ++ "` declares " ++ toString expected ++ " " ++ kind.name ++ " but "
      ++ toString found ++ " were supplied"

end ContractError

namespace Procedure

/-- The declared parameters of one kind. -/
def params (p : Procedure) : ParamKind → List VarDecl
  | .arguments => p.args
  | .results => p.results

/-- As many parameters must be supplied as are declared. -/
def checkArity (p : Procedure) (kind : ParamKind) (found : Nat) : Except ContractError Unit :=
  let expected := (p.params kind).length
  if expected = found then return ()
  else throw (.arityMismatch p.name kind expected found)

/-- Actual parameters for formal ones. -/
def callSubst (p : Procedure) (c : Call) : NameMap Expr :=
  let results := (p.results.zip c.results).map fun (formal, actual) =>
    (formal.name, Expr.var actual)
  let args := (p.args.zip c.args).map fun (formal, actual) => (formal.name, actual)
  .ofList (results ++ args)

/-- The variable a modified name stands for. -/
def actualName (σ : NameMap Expr) (name : String) : String :=
  match σ.find? name with
  | some (.var actual) => actual
  | _ => name

/-- The commands for a contract with its parameters replaced. -/
def contractCommands (p : Procedure) (σ : NameMap Expr) : List Command :=
  p.requires.map (fun e => Command.assert (e.subst σ))
    ++ p.modifies.map (fun clause => Command.havoc (clause.map (actualName σ)))
    ++ p.ensures.map (fun e => Command.assume (e.subst σ))

/-- Move labels to the first of some commands. Without commands the labels
    stand at one that does nothing. -/
def labelFirst (labels : List String) : List Command → List Command
  | [] => [{ labels, action := .assume (.bool true) }]
  | c :: cs => { c with labels } :: cs

/-- The commands standing for a call. -/
def expandCall (p : Procedure) (labels : List String) (c : Call) :
    Except ContractError (List Command) := do
  p.checkArity .results c.results.length
  p.checkArity .arguments c.args.length
  return labelFirst labels (p.contractCommands (p.callSubst c))

end Procedure

namespace Scope

/-- The commands standing for a command, calls being replaced. -/
def expandCommand (s : Scope) (c : Command) : Except ContractError (List Command) :=
  match c.action with
  | .call site =>
    match s.procedure? site.callee with
    | some p => p.expandCall c.labels site
    | none => throw (.unknownCallee site.callee)
  | _ => return [c]

/-- Replace every call of a body by the callee's contract. -/
def expandCalls (s : Scope) (body : Body) : Except ContractError Body := do
  return (← body.mapM s.expandCommand).flatten

end Scope

end Vouch
