/-!
# Reports

A verdict that no prover stands behind counts for nothing: a run in which questions
were answered without proof never ends with success.

## Main definitions

* `Verdict`: What became of a routine.
* `Report`: What is known of a program after its routines were checked.
* `Report.exitCode`: The exit status of a run.
-/

namespace Vouch

/-- What became of a routine. -/
inductive Verdict
  /-- The condition is valid. -/
  | ok
  /-- The prover did not find the condition valid. -/
  | nok
  /-- The prover failed. -/
  | unknown
deriving DecidableEq

namespace Verdict

/-- The verdict in capital letters. -/
def label : Verdict → String
  | ok => "OK"
  | nok => "NOK"
  | unknown => "UNKNOWN"

/-- The verdict in small letters. -/
def name : Verdict → String
  | ok => "ok"
  | nok => "nok"
  | unknown => "unknown"

/-- The verdict for an answer, if there is one. -/
def ofAnswer : Option Bool → Verdict
  | some true => ok
  | some false => nok
  | none => unknown

end Verdict

/-- What is said about a routine. -/
structure RoutineReport where
  name : String
  verdict : Verdict
  durationMs : Nat := 0
  location : Option String := none
deriving DecidableEq

/-- What is said about a program. -/
structure Report where
  routines : List RoutineReport := []
  /-- Whether a verdict was given without proof. -/
  degraded : Bool := false
deriving DecidableEq

namespace Report

/-- The number of routines with a verdict. -/
def count (r : Report) (v : Verdict) : Nat :=
  r.routines.countP (·.verdict = v)

/-- Whether every routine was found correct. -/
def allOk (r : Report) : Bool :=
  r.routines.all (·.verdict = .ok)

/-- The time all routines took together. -/
def totalMs (r : Report) : Nat :=
  r.routines.foldl (fun total x => total + x.durationMs) 0

/-- The exit status of a run: zero if every routine was proved correct. -/
def exitCode (r : Report) : Nat :=
  if r.degraded || !r.allOk then 1 else 0

end Report

end Vouch
