import AdaptiveMesh.Forest.Audit
import AdaptiveMesh.Forest.Round
import AdaptiveMesh.Options.Format
import AdaptiveMesh.Proofs.GradedRound
import AdaptiveMesh.Proofs.Climbing
import AdaptiveMesh.Proofs.Clamping
import AdaptiveMesh.Proofs.Causes
import AdaptiveMesh.Proofs.Faults
import AdaptiveMesh.Proofs.Passes
import AdaptiveMesh.Proofs.Agreement
import AdaptiveMesh.Proofs.AtOnce
import AdaptiveMesh.Proofs.Steering
import AdaptiveMesh.Proofs.Siblings
import AdaptiveMesh.Proofs.Stall
import AdaptiveMesh.Proofs.Undo
import AdaptiveMesh.Proofs.Bounds
import AdaptiveMesh.Proofs.Legality
import AdaptiveMesh.Proofs.Isotropy
import AdaptiveMesh.Proofs.IsotropicRound
import AdaptiveMesh.Proofs.Report
import AdaptiveMesh.Proofs.Coverage
import AdaptiveMesh.Proofs.Arrival
import AdaptiveMesh.Proofs.Building
import AdaptiveMesh.Proofs.RoundTrip
import AdaptiveMesh.Proofs.AskingOrder
import AdaptiveMesh.Proofs.Seam
import AdaptiveMesh.Proofs.ProposalOrder
import AdaptiveMesh.Proofs.CompleteFamilies
import AdaptiveMesh.Proofs.Accounting
import AdaptiveMesh.Proofs.Finality
import AdaptiveMesh.Proofs.Partition
import AdaptiveMesh.Proofs.Ceiling
import AdaptiveMesh.Proofs.Deferral
import AdaptiveMesh.Proofs.Phases
import AdaptiveMesh.Proofs.EitherSide
import AdaptiveMesh.Proofs.Intervals
import AdaptiveMesh.Proofs.Frames
