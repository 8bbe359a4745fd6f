/-!
# Prover Failures

Most failures leave the prover in an unknown condition, and the session with it; only
a call that never reached the prover leaves everything as it was.

## Main definitions

* `ProverError`: What can go wrong with a prover.
* `ProverError.isFatal`: Whether a session cannot go on after that.
-/

namespace Vouch

/-- The provers that are known. Both speak the same language on the wire. -/
inductive ProverKind
  | simplify
  | z3
deriving DecidableEq, Inhabited

namespace ProverKind

/-- The prover's name. -/
def name : ProverKind → String
  | simplify => "Simplify"
  | z3 => "Z3"

end ProverKind

/-- What can go wrong with a prover. -/
inductive ProverError
  /-- There is no program at the configured path. -/
  | notFound (kind : ProverKind) (path : String)
  /-- The program did not start. -/
  | spawn (reason : String)
  /-- Lines could not be exchanged with the program. -/
  | channel (reason : String)
  /-- The program ended. It has no status if it was stopped. -/
  | exited (status : Option Int)
  /-- The program complained about what it was sent. -/
  | malformed (line : String)
  /-- The session was not started. -/
  | notStarted
  /-- The session failed before. -/
  | sessionFailed
  /-- There is no open scope to close, or there is one where none may be. -/
  | scopeUnderflow
deriving DecidableEq

namespace ProverError

/-- The wording of each failure. -/
def message : ProverError → String
  | notFound kind path => kind.name ++ " binary not found at: " ++ path
  | spawn reason => "failed to start prover: " ++ reason
  | channel reason => "prover I/O error: " ++ reason
  | exited none => "prover process exited"
  | exited (some status) => "prover process exited with status " ++ toString status
  | malformed line => "unexpected prover output: " ++ line
  | notStarted => "prover session not started"
  | sessionFailed => "prover session failed; reinitialize before further use"
  | scopeUnderflow => "pop at base scope"

/-- Whether a session cannot go on after the failure. -/
def isFatal : ProverError → Bool
  | notStarted | scopeUnderflow => false
  | _ => true

end ProverError

end Vouch
