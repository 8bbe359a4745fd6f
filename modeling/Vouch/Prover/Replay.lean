import Vouch.Prover.Child
import Vouch.Text.Search

/-!
# Replayed Programs

A host with a single program, whose answers are written down beforehand. Commands get no
answer. Every other line is a query and gets the next answer of the script; an answer in
which nothing is a verdict or a complaint is the last thing the program says.

## Main definitions

* `Tape`: Scripts, and one transcript of all that is started and sent.
* `Host.replay`: The host.
-/

namespace Vouch

/-- The answers of a program that are left, each a list of lines. -/
abbrev Answers := List (List String)

/-- The scripts for programs yet to be started, and the transcript. -/
structure Tape where
  scripts : List Answers := []
  /-- What happened, latest first. -/
  transcript : List String := []

namespace Tape

/-- Add a line to the transcript. -/
def note (t : Tape) (line : String) : Tape :=
  { t with transcript := line :: t.transcript }

/-- The transcript, oldest line first. -/
def lines (t : Tape) : List String :=
  t.transcript.reverse

/-- Whether a line is a verdict or a complaint. -/
def settles (line : String) : Bool :=
  match Answer.ofLine line with
  | .ok none => false
  | _ => true

/-- The lines in which a text is printed. -/
def printed (texts : List String) : List String :=
  texts.flatMap Text.lines

/-- How the program reacts to a line. -/
def react (line : String) : Answers → Output × Answers
  | answers =>
    if "(BG_".toList.isPrefixOf line.toList then ({}, answers)
    else
      match answers with
      | answer :: rest =>
        ({ lines := printed answer, ended := if answer.any settles then none else some 0 }, rest)
      | [] =>
        ({ lines := [if Text.hasPart line "FALSE" then "1: Invalid." else "1: Valid."] }, [])

end Tape

namespace Host

/-- The host whose one program is `program`; of the paths, those of `isThere`
    lead somewhere. -/
def replay (program : String) (isThere : String → Bool) : Host Tape Answers where
  isThere path := return path == program || isThere path
  spawn c := do
    if c.path != program then return .error "No such file or directory (os error 2)"
    let t ← get
    set { t.note (" ".intercalate ("spawn" :: c.arguments)) with scripts := t.scripts.tail }
    return .ok (t.scripts.headD [])
  hear line answers := do
    modify fun t => t.note line
    return Tape.react line answers
  accepts _ _ := return true

end Host

end Vouch
