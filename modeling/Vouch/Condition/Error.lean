/-!
# Why There Is No Verification Condition

## Main definitions

* `ConditionError`: Why a body has no verification condition.
-/

namespace Vouch

/-- Why a body has no verification condition. -/
inductive ConditionError where
  | cyclicFlowGraph (routine : String)
  | graphMismatch (graph body : Nat)
  | unknownVariable (name : String)
  | illTyped (expression : String)
  | remainingCall (callee : String)
  | quantifierInTerm (expression : String)
deriving DecidableEq

namespace ConditionError

/-- What is wrong. -/
def message : ConditionError → String
  | cyclicFlowGraph routine => "flow graph of `" ++ routine ++ "` is cyclic"
  | graphMismatch graph body =>
    "flow graph has " ++ toString graph ++ " nodes but the body has " ++ toString body
      ++ " commands"
  | unknownVariable name => "unknown variable `" ++ name ++ "`"
  | illTyped expression => "ill-typed expression `" ++ expression ++ "`"
  | remainingCall callee => "call to `" ++ callee ++ "` was not desugared"
  | quantifierInTerm expression => "quantifier in term position: `" ++ expression ++ "`"

end ConditionError

end Vouch
