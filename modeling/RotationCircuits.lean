import RotationCircuits.Scalar
import RotationCircuits.Binary64
import RotationCircuits.Decimal
import RotationCircuits.Decimal.Shortest
import RotationCircuits.Decimal.Layout
import RotationCircuits.Angle
import RotationCircuits.Amplitude
import RotationCircuits.Operator
import RotationCircuits.PairOperator
import RotationCircuits.Qubit
import RotationCircuits.Gate
import RotationCircuits.Gate.Text
import RotationCircuits.Circuit
import RotationCircuits.Text.Token
import RotationCircuits.Text.Lexer
import RotationCircuits.Text.Error
import RotationCircuits.Text.Notation
import RotationCircuits.Hardware.Basis
import RotationCircuits.Hardware.Profile
import RotationCircuits.Error
import RotationCircuits.Sequence
import RotationCircuits.Euler
import RotationCircuits.Sequence.Peephole
import RotationCircuits.Sequence.Optimize
import RotationCircuits.Native
import RotationCircuits.Edit
import RotationCircuits.Run
import RotationCircuits.Pipeline
import RotationCircuits.Json.Value
import RotationCircuits.Json.Writer
import RotationCircuits.Json.Reader
import RotationCircuits.Json.Circuit
import RotationCircuits.Json.Hardware
import RotationCircuits.Proofs.Outcome
import RotationCircuits.Proofs.Run.Loop
import RotationCircuits.Proofs.Native
import RotationCircuits.Proofs.Meaning
import RotationCircuits.Proofs.Invariant
import RotationCircuits.Proofs.Run.Splitting
import RotationCircuits.Proofs.Runnable
import RotationCircuits.Proofs.Exact.Reals
import RotationCircuits.Proofs.Exact.Rotation
import RotationCircuits.Proofs.Exact.Nearness
import RotationCircuits.Proofs.Exact.Peephole
import RotationCircuits.Proofs.Exact.Rendering
import RotationCircuits.Proofs.Exact.Synthesis
import RotationCircuits.Proofs.Exact.NetOperation
import RotationCircuits.Proofs.Exact.Composition
import RotationCircuits.Proofs.Exact.PhaseTest
import RotationCircuits.Proofs.Run.Order
import RotationCircuits.Proofs.Run.Exactness
import RotationCircuits.Proofs.Text.Grammar
import RotationCircuits.Proofs.Binary64.Canonical
import RotationCircuits.Proofs.Decimal.Value
import RotationCircuits.Proofs.Decimal.ReadBack
import RotationCircuits.Proofs.Text.Lexing
import RotationCircuits.Proofs.Text.Words
import RotationCircuits.Proofs.Text.RoundTrip
import RotationCircuits.Proofs.Text.Spans
import RotationCircuits.Proofs.Text.Spacing
import RotationCircuits.Proofs.Text.Diagnosis
import RotationCircuits.Proofs.Pipeline.Failure
import RotationCircuits.Proofs.Pipeline.Skipping
import RotationCircuits.Proofs.Pipeline.Substitution
import RotationCircuits.Proofs.Json.Tokens
import RotationCircuits.Proofs.Json.RoundTrip
import RotationCircuits.Proofs.Json.Record
import RotationCircuits.Proofs.Json.Circuit
import RotationCircuits.Proofs.Json.Hardware
import RotationCircuits.Proofs.Length
import RotationCircuits.Proofs.Selection
import RotationCircuits.Proofs.Sequence.Settled
import RotationCircuits.Proofs.Sequence.Idle
import RotationCircuits.Proofs.Binary64.Rounding
import RotationCircuits.Proofs.Binary64.Arithmetic
import RotationCircuits.Proofs.Binary64.Exactness
import RotationCircuits.Proofs.Angle.Wrapping
import RotationCircuits.Proofs.Finite.Angles
import RotationCircuits.Proofs.Finite.Native
import RotationCircuits.Proofs.Angle.ZeroTest
import RotationCircuits.Proofs.Angle.Normalization
import RotationCircuits.Proofs.Finite.Append
import RotationCircuits.Proofs.Finite.Synthesis
import RotationCircuits.Proofs.Finite.Optimize
import RotationCircuits.Proofs.Text.WriteBack
