import Vouch.Main
import Vouch.Proofs.Condition.Acceptance
import Vouch.Proofs.Condition.WireNames
import Vouch.Proofs.Contract.Writes
import Vouch.Proofs.Flow.Confinement
import Vouch.Proofs.Flow.Covering
import Vouch.Proofs.Flow.Sorting
import Vouch.Proofs.Flow.Splice
import Vouch.Proofs.Lang.Codec
import Vouch.Proofs.Prover.Alignment
import Vouch.Proofs.Prover.Wire
import Vouch.Proofs.Term.Bags
import Vouch.Proofs.Term.Forest
import Vouch.Proofs.Term.Occurrences
import Vouch.Proofs.Term.Stack
import Vouch.Proofs.Term.Updates
import Vouch.Proofs.Verify.Neighbours
import Vouch.Proofs.Verify.Printing
import Vouch.Proofs.Verify.Refusals
