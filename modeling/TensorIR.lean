import TensorIR.Builder.Action
import TensorIR.Proofs.Alpha.Invariance
import TensorIR.Proofs.Kernels
import TensorIR.Proofs.Operators
import TensorIR.Proofs.Plain
import TensorIR.Proofs.Scoping
import TensorIR.Proofs.Alpha.Deciding
import TensorIR.Proofs.Inference
import TensorIR.Proofs.Reemission
import TensorIR.Proofs.History
import TensorIR.Proofs.Tidy
import TensorIR.Proofs.Fusion.Normal
import TensorIR.Proofs.Idempotence
import TensorIR.Proofs.Acceptance
import TensorIR.Proofs.Outputs
import TensorIR.Proofs.Demoted
import TensorIR.Proofs.Destinations
import TensorIR.Proofs.Fusion.Destinations
import TensorIR.Proofs.Demoting
import TensorIR.Proofs.Extension
import TensorIR.Proofs.ShapeHeap.Rejection
import TensorIR.Proofs.Fusion.Misfits
import TensorIR.Proofs.ShapeHeap.Discipline
import TensorIR.Proofs.Placing
import TensorIR.Proofs.Folding
import TensorIR.Proofs.Fusion.Keeping
import TensorIR.Proofs.ShapeHeap.Uniqueness
import TensorIR.Proofs.Broadcasting
import TensorIR.Proofs.Joining
import TensorIR.Proofs.Coherence
import TensorIR.Proofs.Alpha.Expressions
import TensorIR.Proofs.Exactness
import TensorIR.Proofs.Compatibility
import TensorIR.Proofs.Reading.Shapes
import TensorIR.Proofs.Insertion
import TensorIR.Proofs.Occurrences
import TensorIR.Proofs.Substitution
