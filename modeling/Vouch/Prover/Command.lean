import Vouch.Prover.Error
import Vouch.Text.Blank
import Vouch.Text.PathName

/-!
# Prover Commands

The kind of a prover is guessed from its file name, and decides which arguments make
it listen for commands and whether it takes a time limit.

## Main definitions

* `ProverCommand`: A prover program with its arguments.
* `ProverCommand.ofLine?`: Reads a command from a line.
-/

namespace Vouch

namespace ProverKind

/-- The arguments that make the prover listen for commands. -/
def interactive : ProverKind → List String
  | simplify => []
  | z3 => ["/si"]

/-- The argument for a time limit in milliseconds, which is given in whole
    seconds. Zero stands for no limit. -/
def timeLimit : ProverKind → Nat → List String
  | simplify, _ => []
  | z3, 0 => []
  | z3, ms => ["/T:" ++ toString ((ms + 999) / 1000)]

end ProverKind

/-- A prover program with its arguments. -/
structure ProverCommand where
  kind : ProverKind
  path : String
  /-- The time limit in milliseconds; zero is none. -/
  timeoutMs : Nat := 0
  extra : List String := []
deriving DecidableEq, Inhabited

namespace ProverCommand

/-- The kind of a prover, guessed from the name of its program. -/
def kindOf (path : String) : ProverKind :=
  match PathName.stem? path with
  | some stem => if Text.asciiLower stem == "z3" then .z3 else .simplify
  | none => .simplify

/-- Read a command from a line: the program and its arguments, between blanks.
    Arguments that the kind brings along anyway are dropped. -/
def ofLine? (line : String) : Option ProverCommand :=
  match Text.words line with
  | [] => none
  | path :: args =>
    let kind := kindOf path
    some { kind, path, extra := args.filter fun a => !kind.interactive.contains a }

/-- All arguments the program is started with. -/
def arguments (c : ProverCommand) : List String :=
  c.kind.interactive ++ c.kind.timeLimit c.timeoutMs ++ c.extra

/-- Whether the path is a mere name, to be looked up at the start. -/
def isBare (c : ProverCommand) : Bool :=
  (PathName.parts c.path).length == 1

/-- Refuse a path at which there is nothing. -/
def check (c : ProverCommand) (isThere : Bool) : Except ProverError Unit :=
  if c.isBare || isThere then .ok () else .error (.notFound c.kind c.path)

end ProverCommand

end Vouch
