import TileFacts.Lowering
import TileFacts.Proofs.Constants
import TileFacts.Proofs.Describes
import TileFacts.Proofs.Update
import TileFacts.Proofs.Pattern
import TileFacts.Proofs.Classification
import TileFacts.Proofs.WellFormed
import TileFacts.Proofs.Precision
import TileFacts.Proofs.Fixpoint
import TileFacts.Proofs.Visits
import TileFacts.Proofs.Budget
import TileFacts.Proofs.Termination
import TileFacts.Proofs.Definition
import TileFacts.Proofs.Outcome
import TileFacts.Proofs.Replacement
import TileFacts.Proofs.Access
import TileFacts.Proofs.Progress
import TileFacts.Proofs.Causality
import TileFacts.Proofs.Restriction
import TileFacts.Proofs.Forward
import TileFacts.Proofs.Entailment
import TileFacts.Proofs.Rule.Quotient
import TileFacts.Proofs.Rule.Residue
import TileFacts.Proofs.Rule.Policy
import TileFacts.Proofs.Rule.Folding
import TileFacts.Proofs.Monotone
import TileFacts.Proofs.Tracking
import TileFacts.Proofs.Redirection
import TileFacts.Proofs.Widening
import TileFacts.Proofs.Power
import TileFacts.Proofs.Rule.Replication
import TileFacts.Proofs.Rule.Scaling
