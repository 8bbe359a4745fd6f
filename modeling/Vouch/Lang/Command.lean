import Vouch.Lang.Expr

/-!
# Commands

A command is followed by the next one, unless it is a jump: a `goto` continues at
any of its targets, and one without targets leaves the routine.

## Main definitions

* `Action`: What a command does.
* `Command`: An action with labels.
* `Body`: The commands of a routine.
-/

namespace Vouch

/-- A call of a procedure. -/
structure Call where
  callee : String
  results : List String := []
  args : List Expr := []
deriving BEq, Inhabited

/-- What a command does. -/
inductive Action where
  | assert (condition : Expr)
  | assume (condition : Expr)
  /-- Assign all values at once. -/
  | assign (pairs : List (String × Expr))
  /-- Give the variables arbitrary values. -/
  | havoc (vars : List String)
  | call (site : Call)
  /-- Continue at any of the labels; without labels, leave the routine. -/
  | goto (targets : List String)
  | skip
deriving BEq, Inhabited

/-- A command with its labels. -/
structure Command where
  labels : List String := []
  action : Action
deriving BEq, Inhabited

/-- The commands of a routine. -/
abbrev Body := List Command

/-- Names separated by commas. -/
def commaSeparated (names : List String) : String :=
  ", ".intercalate names

namespace Call

/-- The text of a call. -/
def text (c : Call) : String :=
  let results := if c.results.isEmpty then "" else commaSeparated c.results ++ " := "
  "call " ++ results ++ c.callee ++ "(" ++ Expr.listText c.args ++ ");"

end Call

namespace Action

/-- The text of an action. -/
def text : Action → String
  | assert e => "assert " ++ e.text ++ ";"
  | assume e => "assume " ++ e.text ++ ";"
  | assign pairs =>
    commaSeparated (pairs.map (·.1)) ++ " := " ++ Expr.listText (pairs.map (·.2)) ++ ";"
  | havoc vars => "havoc " ++ commaSeparated vars ++ ";"
  | call site => site.text
  | goto [] => "return;"
  | goto targets => "goto " ++ commaSeparated targets ++ ";"
  | skip => "skip;"

end Action

namespace Command

/-- A command without labels. -/
def unlabelled (action : Action) : Command := { action }

/-- Check a condition. -/
def assert (e : Expr) : Command := unlabelled (.assert e)

/-- Continue only if a condition holds. -/
def assume (e : Expr) : Command := unlabelled (.assume e)

/-- Assign one variable. -/
def assign (name : String) (e : Expr) : Command := unlabelled (.assign [(name, e)])

/-- Give variables arbitrary values. -/
def havoc (vars : List String) : Command := unlabelled (.havoc vars)

/-- Call a procedure. -/
def call (callee : String) (results : List String) (args : List Expr) : Command :=
  unlabelled (.call { callee, results, args })

/-- Continue at any of the labels. -/
def goto (targets : List String) : Command := unlabelled (.goto targets)

/-- Do nothing. -/
def skip : Command := unlabelled .skip

/-- The command with one more label. -/
def labelled (c : Command) (label : String) : Command :=
  { c with labels := c.labels ++ [label] }

/-- Whether the command is a jump. -/
def isGoto (c : Command) : Bool :=
  match c.action with
  | .goto _ => true
  | _ => false

/-- The text of a command. -/
def text (c : Command) : String :=
  String.join (c.labels.map (· ++ ": ")) ++ c.action.text

end Command

namespace Body

/-- The text of a body, one command a line. -/
def text (b : Body) : String :=
  String.join (b.map fun c => c.text ++ "\n")

/-- The texts of the commands. -/
def lines (b : Body) : List String :=
  b.map Command.text

end Body

end Vouch
