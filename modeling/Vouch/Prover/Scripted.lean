import Vouch.Prover.Basic
import Vouch.Term.Printer
import Vouch.Text.Search

/-!
# Scripted Provers

A prover whose every reaction is written down beforehand, for trying out how a
session copes with failures. Reactions are used up one by one by all provers that are
started from the script; when there is none left, calls succeed, and a formula counts
as valid if it does not mention falsehood.

## Main definitions

* `Script`: The reactions that are left, and a log.
* `Prover.scripted`: The prover that follows a script.
-/

namespace Vouch

/-- How a scripted prover reacts to a query. -/
inductive Reaction
  | fails (e : ProverError)
  | answers (valid : Bool)
  /-- Valid unless the text mentions falsehood. -/
  | judges

/-- The reactions that are left, and what was asked so far. -/
structure Script where
  starts : List (Option ProverError) := []
  assumes : List (Option ProverError) := []
  retracts : List (Option ProverError) := []
  queries : List Reaction := []
  /-- What was asked, latest first. -/
  log : List String := []

namespace Script

/-- Log a call. -/
def note (s : Script) (line : String) : Script :=
  { s with log := line :: s.log }

/-- The log, oldest call first, and the script with an empty one. -/
def takeLog (s : Script) : List String × Script :=
  (s.log.reverse, { s with log := [] })

/-- Whether a formula that nothing is scripted for counts as valid. -/
def judge (formula : String) : Bool :=
  !Text.hasPart formula "FALSE"

/-- The outcome of a call, given the failure that is scripted for it. -/
def outcome : Option (Option ProverError) → Except ProverError Unit
  | some (some e) => .error e
  | _ => .ok ()

/-- Start a prover. -/
def start : StateM Script (Except ProverError Unit) := do
  let s ← get
  set { s.note "start" with starts := s.starts.tail }
  return outcome s.starts.head?

/-- React to an assumption. -/
def assume (t : Term) : StateM Script (Except ProverError Unit) := do
  let s ← get
  set { s.note ("assume " ++ t.text) with assumes := s.assumes.tail }
  return outcome s.assumes.head?

/-- React to a retraction. -/
def retract : StateM Script (Except ProverError Unit) := do
  let s ← get
  set { s.note "retract" with retracts := s.retracts.tail }
  return outcome s.retracts.head?

/-- React to a query. -/
def isValid (t : Term) : StateM Script (Except ProverError Bool) := do
  let s ← get
  set { s.note ("query " ++ t.text) with queries := s.queries.tail }
  match s.queries.head? with
  | some (.fails e) => return .error e
  | some (.answers valid) => return .ok valid
  | _ => return .ok (judge t.text)

/-- Log that a prover was stopped. -/
def terminate : StateM Script Unit :=
  modify fun s => s.note "terminate"

end Script

namespace Prover

/-- The prover that follows a script. -/
def scripted (isStub : Bool) : Prover Script Unit where
  start := World.act Script.start
  assume t := ExceptT.mk (StateT.lift (World.act (Script.assume t)))
  retract := ExceptT.mk (StateT.lift (World.act Script.retract))
  isValid t := ExceptT.mk (StateT.lift (World.act (Script.isValid t)))
  terminate _ := World.act Script.terminate
  isStub _ := isStub

end Prover

end Vouch
