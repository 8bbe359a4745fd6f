import Vouch.Condition.Error
import Vouch.Contract.Call
import Vouch.Flow.Graph

/-!
# Why a Program Is Not Verified

Failures of a prover are not among the reasons: a routine whose prover fails gets a
verdict that says so.

## Main definitions

* `VerifyError`: What stops the work on a whole program.
-/

namespace Vouch

/-- Why a program is not verified. -/
inductive VerifyError
  /-- A routine has no flow graph. -/
  | flow (e : FlowError)
  /-- A call or a contract does not fit. -/
  | contract (e : ContractError)
  /-- There is no verification condition. -/
  | condition (e : ConditionError)
  /-- A setting makes no sense. -/
  | setting (reason : String)
  /-- The program could not be read. -/
  | unreadable (reason : String)
  /-- The text is not a program. -/
  | malformed

namespace VerifyError

/-- What is said of a text that is not a program. -/
def malformedReason : String := "not a program in JSON form"

/-- The wording of each cause. -/
def message : VerifyError → String
  | flow e => "malformed flow graph: " ++ e.message
  | contract e => "cannot desugar: " ++ e.message
  | condition e => "cannot generate VC: " ++ e.message
  | setting reason => "invalid configuration: " ++ reason
  | unreadable reason => "cannot read program: " ++ reason
  | malformed => "malformed program: " ++ malformedReason

end VerifyError

end Vouch
