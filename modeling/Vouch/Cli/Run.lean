import Vouch.Cli.Options
import Vouch.Cli.Output
import Vouch.Lang.Codec
import Vouch.Prover.Wire
import Vouch.Verify.Workers

/-!
# The Command Line

A run has two halves with the reading of the input file between them. Verdicts go
to the error stream, so that the other one is free for the report that machines
read.

## Main definitions

* `Plan.ofArguments`: Decides from arguments and environment what is to be done.
* `Job.finish`: Does it.
-/

namespace Vouch

/-- What a run prints and its exit status. -/
structure Outcome where
  exit : Nat
  out : List String := []
  err : List String := []

/-- What is to be done with a file. -/
structure Job where
  file : String
  options : Options
  settings : Settings

/-- What the arguments come to. -/
inductive Plan
  | finished (o : Outcome)
  | job (j : Job)

namespace Outcome

/-- The exit status after an error. -/
def errorExit : Nat := 2

/-- The outcome of an error, after some lines were printed. -/
def failed (coloured : Bool) (printed : List String) (e : VerifyError) : Outcome :=
  let label := ({ bold := true, colour := some .red } : Style).paint coloured "error:"
  { exit := errorExit, err := printed ++ [label ++ " " ++ e.message] }

end Outcome

namespace Plan

/-- What the program says about itself. -/
def usage (coloured : Bool) : List String :=
  [ ({ bold := true } : Style).paint coloured
      "ivl-vc: verification conditions for IVL programs",
    "",
    "Usage: ivl-vc [OPTIONS] <PROGRAM.json>",
    "",
    "Options:",
    "  --method <wp|sp>         VC generation method (default: wp)",
    "  --wp, --sp               Shorthands for --method",
    "  --assume-asserts         Assume each assertion after checking it",
    "  --prover <CMD|stub>      Prover command line (default: auto-detect)",
    "  --timeout <MS>           Per-query timeout hint in milliseconds",
    "  -j, --jobs <N>           Verify routines on N threads",
    "  --output-format <FMT>    text (default) or json",
    "  --json                   Same as --output-format json",
    "  -v, --verbose            Show per-routine timing",
    "  -h, --help               Show this help message",
    "  -V, --version            Show version",
    "",
    "Exit status: 0 verified, 1 not verified or no prover, 2 error",
    "",
    "Environment: IVL_VC_PROVER, IVL_VC_TIMEOUT_MS, IVL_VC_METHOD,",
    "             IVL_VC_ASSUME_ASSERTS, IVL_VC_JOBS, RUST_LOG" ]

/-- The name and version of the program. -/
def version : String := "ivl-vc 0.1.0"

/-- The job that arguments and environment describe. -/
def jobOf (installed : Option ProverCommand) (lookup : String → Option String)
    (args : List String) : Except VerifyError Job := do
  let options ← Options.parse args
  match options.file with
  | none => throw (.setting "missing input file (try --help)")
  | some file =>
    let settings ← options.applyTo (← Settings.ofEnvironment installed lookup)
    return { file, options, settings }

/-- Decide what is to be done. A question about the program itself is answered
    whatever the other arguments are. -/
def ofArguments (coloured : Bool) (installed : Option ProverCommand)
    (lookup : String → Option String) (args : List String) : Plan :=
  if args.any fun a => a == "--help" || a == "-h" then
    .finished { exit := 0, err := usage coloured }
  else if args.any fun a => a == "--version" || a == "-V" then
    .finished { exit := 0, err := [version] }
  else
    match jobOf installed lookup args with
    | .ok j => .job j
    | .error e => .finished (.failed coloured [] e)

end Plan

namespace Program

/-- The program in a file, given its bytes or why they could not be read. -/
def ofBytes : Except String ByteArray → Except VerifyError Program
  | .error reason => .error (.unreadable reason)
  | .ok bytes =>
    match String.fromUTF8? bytes with
    | none => .error (.unreadable "stream did not contain valid UTF-8")
    | some text =>
      match Program.parse? text with
      | none => .error .malformed
      | some p => .ok p

end Program

namespace Settings

variable {ω κ : Type}

/-- Verify a program. Routines go to the workers in turn. -/
def verify (s : Settings) (host : Host ω κ) (p : Program) :
    StateM ω (Except VerifyError Report) :=
  let assign := fun i => i % s.jobs
  match s.prover with
  | none => (Prover.stub ω).verifyProgram s.style s.jobs assign p
  | some c => (Prover.wire .standard host c).verifyProgram s.style s.jobs assign p

end Settings

namespace Job

variable {ω κ : Type}

/-- The line that announces a run. -/
def header (coloured : Bool) (file : String) (routines : Nat) : String :=
  ({ bold := true } : Style).paint coloured
    ("Verifying " ++ toString routines ++ " routine(s) from " ++ file)

/-- The outcome of a run that came to a report. -/
def outcome (coloured : Bool) (j : Job) (header : List String) (r : Report) : Outcome :=
  if j.options.json then
    { exit := r.exitCode, out := [(r.toJson j.file j.settings.style.method).pretty] }
  else
    { exit := r.exitCode, err := header ++ r.lines coloured j.options.verbose }

/-- Verify the program in a file, given its bytes or why they could not be
    read. -/
def finish (j : Job) (coloured : Bool) (host : Host ω κ) (content : Except String ByteArray) :
    StateM ω Outcome := do
  match Program.ofBytes content with
  | .error e => return .failed coloured [] e
  | .ok p =>
    let header := if j.options.json then [] else [header coloured j.file p.routines.length]
    match ← j.settings.verify host p with
    | .error e => return .failed coloured header e
    | .ok r => return j.outcome coloured header r

end Job

end Vouch
