import Vouch.Prover.Error
import Vouch.Term.Basic

/-!
# Provers

A prover takes assumptions, retracts the latest of them, and says whether a formula is
valid under those that remain. Everything else about it is left open: any call may fail,
and what it does to the outside is its own affair.

## Main definitions

* `World`: What provers act on.
* `Prover`: What a prover can be asked to do.
* `Prover.stub`: The prover that accepts everything.
-/

namespace Vouch

/-- What provers act on: the supply of nodes and names, and the outside. -/
structure World (ω : Type) where
  supply : Supply := {}
  outside : ω

namespace World

variable {ω α : Type}

/-- Build terms from the supply of a world. -/
def build (m : Fresh α) : StateM (World ω) α := fun w =>
  let (a, supply) := m.run w.supply
  (a, { w with supply })

/-- Act on the outside of a world. -/
def act (m : StateM ω α) : StateM (World ω) α := fun w =>
  let (a, outside) := m.run w.outside
  (a, { w with outside })

end World

/-- What is done with a prover in state `β`. -/
abbrev ProverM (ω β : Type) := ExceptT ProverError (StateT β (StateM (World ω)))

/-- What a prover can be asked to do. -/
structure Prover (ω β : Type) where
  /-- Start a new prover without assumptions. -/
  start : StateM (World ω) (Except ProverError β)
  /-- Assume a term from now on. -/
  assume : Term → ProverM ω β Unit
  /-- Retract the latest assumption. -/
  retract : ProverM ω β Unit
  /-- Whether a term is valid under the assumptions. -/
  isValid : Term → ProverM ω β Bool
  /-- Stop a prover that is no longer needed. -/
  terminate : β → StateM (World ω) Unit
  /-- Whether the prover answers without proving anything. -/
  isStub : β → Bool

namespace Prover

/-- The prover that accepts everything. It stands in where there is none. -/
def stub (ω : Type) : Prover ω Unit where
  start := return .ok ()
  assume _ := return
  retract := return
  isValid _ := return true
  terminate _ := return
  isStub _ := true

end Prover

end Vouch
