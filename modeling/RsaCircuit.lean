import RsaCircuit.Signature.Generator
import RsaCircuit.Proofs.Scalar.Field
import RsaCircuit.Proofs.Scalar.Signed
import RsaCircuit.Proofs.Scalar.Reading
import RsaCircuit.Proofs.Run.Outcome
import RsaCircuit.Proofs.Limbs.Value
import RsaCircuit.Proofs.Limbs.Encoding
import RsaCircuit.Proofs.Limbs.Arithmetic
import RsaCircuit.Proofs.Limbs.Sum
import RsaCircuit.Proofs.Limbs.Multiple
import RsaCircuit.Proofs.Limbs.Order
import RsaCircuit.Proofs.Limbs.Digit
import RsaCircuit.Proofs.Limbs.Division
import RsaCircuit.Proofs.Limbs.Guarded
import RsaCircuit.Proofs.Polynomial.Coefficients
import RsaCircuit.Proofs.Polynomial.Interpolation
import RsaCircuit.Proofs.Registers
import RsaCircuit.Proofs.Registers.Normalization
import RsaCircuit.Proofs.Component.Bits
import RsaCircuit.Proofs.Component.Comparison
import RsaCircuit.Proofs.Component.LimbComparison
import RsaCircuit.Proofs.Component.CarryCheck
import RsaCircuit.Proofs.Polynomial.Limbs
import RsaCircuit.Proofs.Polynomial.Multiplication
import RsaCircuit.Proofs.Component.ModularProduct
import RsaCircuit.Proofs.Component.ProductMisuse
import RsaCircuit.Proofs.Component.Multiplication
import RsaCircuit.Proofs.Component.ModularPower
import RsaCircuit.Proofs.Component.PaddingBits
import RsaCircuit.Proofs.Component.Padding
import RsaCircuit.Proofs.Component.PaddingFailure
import RsaCircuit.Proofs.Signature.Verdict
import RsaCircuit.Proofs.Signature.Generator
import RsaCircuit.Proofs.Signature.Admission
import RsaCircuit.Proofs.Signature.Uniqueness
import RsaCircuit.Proofs.Run.Plan
import RsaCircuit.Proofs.Component.Plans
import RsaCircuit.Proofs.Component.ProductPlan
import RsaCircuit.Proofs.Component.PaddingPlan
import RsaCircuit.Proofs.Signature.Numbering
import RsaCircuit.Proofs.Component.BitRoundTrip
import RsaCircuit.Proofs.Component.ProductResidual
