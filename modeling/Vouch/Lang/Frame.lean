import Vouch.Lang.Scope

/-!
# What Commands Read and Write

A call writes its results and everything its callee's contract lets it change.
The contract is looked up by name, so a call of an undeclared procedure writes
its results only.

## Main definitions

* `Scope.writes`: What a command may change.
* `Command.reads`: What the expressions of a command mention.
-/

namespace Vouch

namespace Scope

/-- Variables a command may change. -/
def writes (s : Scope) (c : Command) : NameSet :=
  match c.action with
  | .assign pairs => .ofList (pairs.map (·.1))
  | .havoc vars => .ofList vars
  | .call site =>
    let modified := ((s.procedure? site.callee).map (·.modifies.flatten)).getD []
    .ofList (site.results ++ modified)
  | _ => ∅

end Scope

namespace Command

/-- Variables the expressions of a command mention. -/
def reads (c : Command) : NameSet :=
  match c.action with
  | .assert e | .assume e => e.freeVars
  | .assign pairs => (pairs.map (·.2)).foldl (fun s e => s.union e.freeVars) ∅
  | .call site => site.args.foldl (fun s e => s.union e.freeVars) ∅
  | _ => ∅

end Command

end Vouch
