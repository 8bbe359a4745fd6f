import Vouch.Prover.Basic
import Vouch.Prover.Child
import Vouch.Term.Unshare

/-!
# Provers that Run as Programs

A prover that runs as a program reads terms as text. Sharing is removed first.
An assumption is sent as one formula, the definitions of shared parts together
with the rest, so that retracting it is one command. The definitions of a
query are assumed before it and retracted after it.

## Main definitions

* `Prover.wire`: The prover that a command starts.
-/

namespace Vouch

namespace Wire

/-- The command that assumes a formula. -/
def push (formula : Term) : String :=
  "(BG_PUSH " ++ formula.text ++ ")"

/-- The command that retracts the latest assumption. -/
def pop : String := "(BG_POP)"

variable {ω κ α : Type}

/-- Build terms on the way to the prover. -/
def build (m : Fresh α) : ProverM ω (Child κ) α :=
  ExceptT.lift (StateT.lift (World.build m))

/-- Talk to the program. -/
def talk (m : ChildM ω κ α) : ProverM ω (Child κ) α :=
  ExceptT.mk fun p => World.act (m.run.run p)

/-- Assume a term, as one formula. -/
def assume (th : Theory) (host : Host ω κ) (t : Term) : ProverM ω (Child κ) Unit := do
  let u ← build (th.unshare t)
  let formula ← build (th.and (u.definitions ++ [u.termOr t]))
  talk (Child.send host (push formula))

/-- Put a query, between the commands for its definitions if it has some. -/
def isValid (th : Theory) (host : Host ω κ) (t : Term) : ProverM ω (Child κ) Bool := do
  let u ← build (th.unshare t)
  if u.definitions.isEmpty then
    talk (Child.query host (u.termOr t).text)
  else
    let definitions ← build (th.and u.definitions)
    talk (Child.send host (push definitions))
    let valid ← talk (Child.query host (u.termOr t).text)
    talk (Child.send host pop)
    return valid

end Wire

namespace Prover

variable {ω κ : Type}

/-- The prover that a command starts. -/
def wire (th : Theory) (host : Host ω κ) (c : ProverCommand) : Prover ω (Child κ) where
  start := World.act (Child.start host c)
  assume := Wire.assume th host
  retract := Wire.talk (Child.send host Wire.pop)
  isValid := Wire.isValid th host
  terminate _ := return
  isStub _ := false

end Prover

end Vouch
