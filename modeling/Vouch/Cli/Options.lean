import Vouch.Cli.Settings

/-!
# Command Line Options

The arguments of the program. An option with a value takes it from the next
argument, or from its own after an equals sign. Options given later replace
those given before.

## Main definitions

* `Options.parse`: Reads the arguments.
* `Options.applyTo`: Puts the options on top of settings.
-/

namespace Vouch

/-- What the arguments ask for. -/
structure Options where
  file : Option String := none
  json : Bool := false
  verbose : Bool := false
  method : Option Method := none
  assumeAsserts : Bool := false
  jobs : Option Nat := none
  /-- The line that starts the prover, or the word for none. -/
  prover : Option String := none
  timeoutMs : Option Nat := none

namespace Options

/-- An argument as an option and its value, if it has the form `--name=value`. -/
def split (arg : String) : String × Option String :=
  let cs := arg.toList
  let flag := cs.takeWhile (· != '=')
  match cs.dropWhile (· != '=') with
  | _ :: value =>
    if "--".toList.isPrefixOf flag then (String.ofList flag, some (String.ofList value))
    else (arg, none)
  | [] => (arg, none)

/-- What an option without value does. -/
def switch? (flag : String) : Option (Options → Options) :=
  match flag with
  | "--json" => some fun o => { o with json := true }
  | "--verbose" | "-v" => some fun o => { o with verbose := true }
  | "--sp" => some fun o => { o with method := some .sp }
  | "--wp" => some fun o => { o with method := some .wp }
  | "--assume-asserts" => some fun o => { o with assumeAsserts := true }
  | _ => none

/-- A number given to an option. -/
def number (flag raw : String) : Except VerifyError Nat :=
  match Text.word64? (Text.trim raw) with
  | some n => .ok n
  | none => .error (.setting (flag ++ " expects a number, got " ++ raw))

/-- Whether a format is the one for machines. -/
def format (raw : String) : Except VerifyError Bool :=
  match raw with
  | "json" => .ok true
  | "text" => .ok false
  | _ => .error (.setting ("unknown output format: " ++ raw))

/-- What an option with a value does. -/
def valued? (flag : String) : Option (String → Options → Except VerifyError Options) :=
  match flag with
  | "--output-format" => some fun raw o => do return { o with json := ← format raw }
  | "--method" => some fun raw o => do return { o with method := some (← Settings.method raw) }
  | "--jobs" | "-j" => some fun raw o => do return { o with jobs := some (← number flag raw) }
  | "--prover" => some fun raw o => .ok { o with prover := some raw }
  | "--timeout" => some fun raw o => do
    return { o with timeoutMs := some (← number flag raw) }
  | _ => none

/-- An argument that is no known option: the input file, if there is none yet. -/
def positional (arg : String) (o : Options) : Except VerifyError Options :=
  if "-".toList.isPrefixOf arg.toList then .error (.setting ("unknown flag: " ++ arg))
  else if o.file.isNone then .ok { o with file := some arg }
  else .error (.setting ("unexpected argument: " ++ arg))

/-- Read arguments on top of options read before. -/
def parseFrom (o : Options) : List String → Except VerifyError Options
  | [] => .ok o
  | arg :: rest =>
    let (flag, inlined) := split arg
    match switch? flag, valued? flag with
    | some f, _ => parseFrom (f o) rest
    | none, none => do parseFrom (← positional arg o) rest
    | none, some f =>
      match inlined with
      | some raw => do parseFrom (← f raw o) rest
      | none =>
        match rest with
        | raw :: rest => do parseFrom (← f raw o) rest
        | [] => .error (.setting (flag ++ " needs a value"))

/-- Read the arguments. -/
def parse (args : List String) : Except VerifyError Options :=
  parseFrom {} args

/-- The prover that the option for it names. -/
def proverOf (line : String) : Except VerifyError (Option ProverCommand) :=
  if Text.asciiLower line == "stub" then .ok none
  else
    match ProverCommand.ofLine? line with
    | some c => .ok (some c)
    | none => .error (.setting "--prover needs a command")

/-- The settings with the options put on top. -/
def applyTo (o : Options) (s : Settings) : Except VerifyError Settings := do
  let s := (o.method.map s.withMethod).getD s
  let s := if o.assumeAsserts then s.withAssumeAsserts true else s
  let s := (o.jobs.map s.withJobs).getD s
  let s ← match o.prover with
    | some line => do pure { s with prover := ← proverOf line }
    | none => pure s
  return (o.timeoutMs.map s.withTimeout).getD s

end Options

end Vouch
