import Vouch.Prover.Command
import Vouch.Text.Numeral
import Vouch.Verify.Verifier

/-!
# Settings

What the environment says about how to verify. Variables are looked at in a fixed
order, and the first one that makes no sense is reported.

## Main definitions

* `Settings`: The prover, its time limit, the method and the number of workers.
* `Settings.ofEnvironment`: Reads settings from variables.
-/

namespace Vouch

/-- How to verify. -/
structure Settings where
  style : ConditionStyle := {}
  /-- The prover to start, if any. -/
  prover : Option ProverCommand := none
  /-- The number of workers. -/
  jobs : Nat := 1

namespace Settings

/-- Set the number of workers, of which there is at least one. -/
def withJobs (s : Settings) (jobs : Nat) : Settings :=
  { s with jobs := max jobs 1 }

/-- Set the time limit of the prover, if there is one. -/
def withTimeout (s : Settings) (timeoutMs : Nat) : Settings :=
  { s with prover := s.prover.map fun c => { c with timeoutMs } }

/-- Set the method. -/
def withMethod (s : Settings) (method : Method) : Settings :=
  { s with style := { s.style with method } }

/-- Set whether assertions are assumed once they were checked. -/
def withAssumeAsserts (s : Settings) (assumeAsserts : Bool) : Settings :=
  { s with style := { s.style with assumeAsserts } }

/-- A text without blanks at its ends and in small letters. No word of the
    settings has a letter that is the lower case of one outside ASCII. -/
def plainWord (raw : String) : String :=
  Text.asciiLower (Text.trim raw)

/-- A word that switches something on or off. -/
def flag? (raw : String) : Option Bool :=
  let word := plainWord raw
  if ["1", "true", "yes", "on"].contains word then some true
  else if ["", "0", "false", "no", "off"].contains word then some false
  else none

/-- The method of that name. -/
def method (raw : String) : Except VerifyError Method :=
  match Method.ofName? raw with
  | some m => .ok m
  | none => .error (.setting (Method.unknownMessage raw))

/-- The prover that a line names, or none if the line says so. -/
def proverOf (line : String) : Except VerifyError (Option ProverCommand) :=
  if ["stub", "none"].contains (plainWord line) then .ok none
  else
    match ProverCommand.ofLine? line with
    | some c => .ok (some c)
    | none => .error (.setting "IVL_VC_PROVER is empty")

/-- The names of the variables, in the order in which they are looked at. -/
def names : List String :=
  ["IVL_VC_PROVER", "IVL_VC_TIMEOUT_MS", "IVL_VC_METHOD", "IVL_VC_ASSUME_ASSERTS", "IVL_VC_JOBS"]

/-- The effect of one variable on the settings. -/
def apply (s : Settings) (name raw : String) : Except VerifyError Settings :=
  match name with
  | "IVL_VC_PROVER" => do return { s with prover := ← proverOf raw }
  | "IVL_VC_TIMEOUT_MS" =>
    match Text.word64? (Text.trim raw) with
    | some ms => .ok (s.withTimeout ms)
    | none => .error (.setting ("IVL_VC_TIMEOUT_MS is not a number: " ++ raw))
  | "IVL_VC_METHOD" => do return s.withMethod (← method (Text.trim raw))
  | "IVL_VC_ASSUME_ASSERTS" =>
    match flag? raw with
    | some b => .ok (s.withAssumeAsserts b)
    | none => .error (.setting ("IVL_VC_ASSUME_ASSERTS is not a boolean: " ++ raw))
  | "IVL_VC_JOBS" =>
    match Text.word64? (Text.trim raw) with
    | some n => .ok (s.withJobs n)
    | none => .error (.setting ("IVL_VC_JOBS is not a number: " ++ raw))
  | _ => .ok s

/-- Read settings from variables. A prover that is installed is used unless a
    variable names another. -/
def ofEnvironment (installed : Option ProverCommand) (lookup : String → Option String) :
    Except VerifyError Settings :=
  names.foldlM (fun s name =>
    match lookup name with
    | some raw => s.apply name raw
    | none => .ok s) { prover := installed }

end Settings

end Vouch
