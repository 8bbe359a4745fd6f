import Vouch.Cli.Run

/-!
# The Program

Reads arguments, environment and the input file, and prints the outcome. It
starts no other programs, so every prover is reported missing and verdicts are
marked as unchecked.

## Main definitions

* `main`: Runs the program on its arguments.
-/

namespace Vouch

/-- The host on which no program can be started. -/
def idle : Host Unit Empty where
  isThere _ := return false
  spawn _ := return .error "No such file or directory (os error 2)"
  hear _ program := nomatch program
  accepts _ program := nomatch program

/-- Why a file could not be read. -/
def readFailure : IO.Error → String
  | .noFileOrDirectory _ _ _ => "No such file or directory (os error 2)"
  | .inappropriateType _ _ _ => "Is a directory (os error 21)"
  | .permissionDenied _ _ _ => "Permission denied (os error 13)"
  | e => toString e

/-- The bytes of a file. -/
def readBytes (file : String) : IO (Except String ByteArray) :=
  try
    return .ok (← IO.FS.readBinFile file)
  catch e =>
    return .error (readFailure e)

/-- Print an outcome. -/
def printOutcome (o : Outcome) : IO UInt32 := do
  o.err.forM IO.eprintln
  o.out.forM IO.println
  return o.exit.toUInt32

end Vouch

open Vouch in
/-- Run the program on its arguments. -/
def main (args : List String) : IO UInt32 := do
  let values ← Settings.names.mapM fun name => return (name, ← IO.getEnv name)
  let coloured ← (← IO.getStderr).isTty
  match Plan.ofArguments coloured none (fun name => (values.lookup name).join) args with
  | .finished o => printOutcome o
  | .job j =>
    let (o, _) := (j.finish coloured idle (← readBytes j.file)).run ()
    printOutcome o
