import Vouch.Prover.Answer
import Vouch.Prover.Command

/-!
# Child Programs

A prover runs as a program of its own, which is sent lines and prints lines. Only
queries are answered. What is printed but not read stays in front of what is printed
later, so an answer that goes on after its verdict is read as the beginning of the next
one.

## Main definitions

* `Host`: How the programs outside behave.
* `Child`: A program that was started.
* `Child.write`: Writes a text to a program.
* `Child.query`: Writes a query and reads the answer.
-/

namespace Vouch

/-- What a program does when it is sent a line. -/
structure Output where
  lines : List String := []
  /-- The status with which the program ended, if it did. -/
  ended : Option Int := none

/-- How programs behave, as far as they matter here. `ω` is the state of the
    outside and `κ` that of a single program. -/
structure Host (ω κ : Type) where
  /-- Whether there is something at a path. -/
  isThere : String → StateM ω Bool
  /-- Start a program, or say why it cannot be started. -/
  spawn : ProverCommand → StateM ω (Except String κ)
  /-- Send a line to a program. -/
  hear : String → κ → StateM ω (Output × κ)
  /-- Whether a text can be written to a program that ended. Nobody reads it. -/
  accepts : String → κ → StateM ω Bool

/-- Whether a program still runs. -/
inductive Life
  | running
  /-- The program ended by itself, and with it what it prints. -/
  | ended (status : Int)
  /-- The program was stopped; it had ended before if there is a status. -/
  | stopped (status : Option Int)
deriving DecidableEq

namespace Life

/-- The status with which a program ended by itself. -/
def status? : Life → Option Int
  | running => none
  | ended status => some status
  | stopped status => status

end Life

/-- A program that was started. -/
structure Child (κ : Type) where
  program : κ
  life : Life := .running
  /-- Lines that were printed and not yet read. -/
  unread : List String := []
  /-- The number of queries that were sent. -/
  queries : Nat := 0

/-- What is done with a running program. -/
abbrev ChildM (ω κ : Type) := ExceptT ProverError (StateT (Child κ) (StateM ω))

namespace Child

variable {ω κ : Type}

/-- The failure to send a line to a program that is gone. -/
def brokenPipe : ProverError :=
  .channel "Broken pipe (os error 32)"

/-- Start a program. -/
def start (host : Host ω κ) (c : ProverCommand) :
    StateM ω (Except ProverError (Child κ)) := do
  match c.check (← host.isThere c.path) with
  | .error e => return .error e
  | .ok () =>
    match ← host.spawn c with
    | .error reason => return .error (.spawn (c.path ++ ": " ++ reason))
    | .ok program => return .ok { program }

/-- Take note of what the program did. -/
def observe (p : Child κ) (out : Output) (program : κ) : Child κ :=
  { p with
    program
    unread := p.unread ++ out.lines
    life := match out.ended with
      | some status => .ended status
      | none => p.life }

/-- Send one line, which nobody hears if the program is gone. -/
def sendLine (host : Host ω κ) (line : String) : StateT (Child κ) (StateM ω) Unit := do
  let p ← get
  if p.life = .running then
    let (out, program) ← (host.hear line p.program : StateM ω _)
    set (p.observe out program)

/-- Write a text and the end of the line. A text that has several lines is
    several lines to the program. If the program ended, the pipe may still be
    there or not, and if it was stopped, it is not. -/
def write (host : Host ω κ) (text : String) : ChildM ω κ Unit := do
  let p ← getThe (Child κ)
  match p.life with
  | .running => ((Text.lines text).forM (sendLine host) : StateT (Child κ) (StateM ω) Unit)
  | .ended _ =>
    let accepted ← (host.accepts text p.program : StateM ω Bool)
    if !accepted then throw brokenPipe
  | .stopped _ => throw brokenPipe

/-- Fail if the program is gone. -/
def checkAlive : ChildM ω κ Unit := do
  let p ← getThe (Child κ)
  if p.life ≠ .running then throw (.exited p.life.status?)

/-- Write a command, to which there is no answer. -/
def send (host : Host ω κ) (command : String) : ChildM ω κ Unit := do
  write host command
  checkAlive

/-- Write a query and read the answer up to the verdict. -/
def query (host : Host ω κ) (formula : String) : ChildM ω κ Bool := do
  write host formula
  let p ← getThe (Child κ)
  let (answer, unread) := Answer.read p.unread
  set { p with unread, queries := p.queries + 1 }
  match answer with
  | some verdict => verdict
  | none => throw (.exited p.life.status?)

/-- Stop the program, if it still runs, and close the pipe. -/
def terminate (p : Child κ) : Child κ :=
  { p with life := .stopped p.life.status? }

end Child

end Vouch
