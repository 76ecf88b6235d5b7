import ArithCircuit.Circuit.Listing
import ArithCircuit.Proofs.Aliases
import ArithCircuit.Proofs.Batching
import ArithCircuit.Proofs.CanonicalNumeral
import ArithCircuit.Proofs.CapturedSettings
import ArithCircuit.Proofs.Coherence
import ArithCircuit.Proofs.Connectivity
import ArithCircuit.Proofs.ConstantCircuit
import ArithCircuit.Proofs.Digest
import ArithCircuit.Proofs.Document
import ArithCircuit.Proofs.EquationOrder
import ArithCircuit.Proofs.FailedCalls
import ArithCircuit.Proofs.GadgetMeaning
import ArithCircuit.Proofs.Listing.Faithful
import ArithCircuit.Proofs.LiveWires
import ArithCircuit.Proofs.ModeAgreement
import ArithCircuit.Proofs.ModeNesting
import ArithCircuit.Proofs.NoAborts
import ArithCircuit.Proofs.NormalForm
import ArithCircuit.Proofs.Optimization
import ArithCircuit.Proofs.OtherRows
import ArithCircuit.Proofs.ProverBlocks
import ArithCircuit.Proofs.Spelling
import ArithCircuit.Proofs.UniqueReadability
import ArithCircuit.Proofs.UnusedRegisters
import ArithCircuit.Script.Step
