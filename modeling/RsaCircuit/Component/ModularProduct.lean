import RsaCircuit.Component.CarryCheck
import RsaCircuit.Limbs.Guarded
import RsaCircuit.Polynomial.Interpolation
import RsaCircuit.Registers
set_option autoImplicit false

/-!
# Modular product of two big integers

Both factors are evaluated as polynomials at the points below `2 * limbCount - 1`, multiplied point
by point and interpolated back to the registers of the product.  The registers are normalised and
divided by the modulus.  What the circuit checks is the identity

  `a * b = quotient * modulus + remainder`

over the integers: the residual of both sides, interpolated from its values at the points, has to
pass the carry check, and factors, quotient and remainder have to consist of proper limbs.  The
modulus is not range checked here.

The quotient keeps only as many limbs as the layout has.  If that cuts off something, the identity no
longer holds and the carry check fails.

Every step that has a domain is guarded: interpolation takes one value per point, values are
subtracted in pairs, the quotient is at least as long as what is kept of it, and the division is the
guarded one.
-/

namespace RsaCircuit

/-- A modular product for the limbs of a layout, with the interpolation it needs. -/
structure ModularProduct where
  layout : Layout
  interpolation : Interpolation
  interpolation_eq : interpolation = Interpolation.ofSize layout.productLength

namespace ModularProduct

def ofLayout (layout : Layout) : ModularProduct := ⟨layout, .ofSize layout.productLength, rfl⟩

/-- The factors and the modulus. -/
structure Input where
  left : Limbs
  right : Limbs
  modulus : Limbs
  deriving DecidableEq, Repr, Inhabited

/-- The signals of a modular product. -/
structure Witness where
  /-- The product, which is the remainder. -/
  out : Limbs
  left : Limbs
  right : Limbs
  modulus : Limbs
  /-- The values of the product of the factors. -/
  productValues : List Scalar
  quotient : Limbs
  remainder : Limbs
  /-- The values of the product of quotient and modulus plus the remainder. -/
  divisionValues : List Scalar
  /-- The differences of both. -/
  residualValues : List Scalar
  leftRange : List BitSplit.Witness
  rightRange : List BitSplit.Witness
  quotientRange : List BitSplit.Witness
  remainderRange : List BitSplit.Witness
  carryCheck : CarryCheck.Witness
  deriving DecidableEq, Repr, Inhabited

def Witness.signals (w : Witness) : List Scalar :=
  List.flatten [w.out, w.left, w.right, w.modulus, w.productValues, w.quotient, w.remainder,
    w.divisionValues, w.residualValues,
    w.leftRange.flatMap BitSplit.Witness.signals,
    w.rightRange.flatMap BitSplit.Witness.signals,
    w.quotientRange.flatMap BitSplit.Witness.signals,
    w.remainderRange.flatMap BitSplit.Witness.signals,
    w.carryCheck.signals]

/-- The limbs of the product of the factors, from its values at the points. -/
def normalizedProduct? (product : ModularProduct) (productValues : List Scalar) :
    Except Misuse Limbs := do
  let registers ← product.interpolation.coefficients? productValues
  Registers.normalize? product.layout.productBits product.layout.limbBits registers

/-- Divides the product of the factors and reports what is noticed on the way. -/
def divide (product : ModularProduct) (productValues modulus : Limbs) : Run Limbs.Division := do
  let layout := product.layout
  let dividend ← Run.ofDomain (product.normalizedProduct? productValues)
  Run.each Run.report (Event.ofDivisor modulus)
  let division ← Run.ofArithmetic
    (Limbs.Guarded.divide? layout.limbBits layout.limbCount dividend modulus)
  let above ← Run.ofDomain
    (slice? layout.limbCount division.quotient.length division.quotient)
  if above.any (· ≠ 0) then Run.report (.quotientTooLong layout.limbCount)
  return { division with quotient := division.quotient.take layout.limbCount }

/-- The differences of values at the same points. -/
def differences? (left right : List Scalar) : Except Misuse (List Scalar) := do
  let pairs ← zip? left right
  return pairs.map fun (x, y) => x - y

/-- The product for inputs of the right lengths. -/
def multiply (product : ModularProduct) (input : Input) : Run Witness := do
  let ⟨left, right, modulus⟩ := input
  let layout := product.layout
  let rangeCheck := BitSplit.component layout.limbBits
  let leftRange ← rangeCheck.placeEach "range_a" left
  let rightRange ← rangeCheck.placeEach "range_b" right
  let xs := points layout.productLength
  let productValues := xs.map fun x => Coefficients.eval left x * Coefficients.eval right x
  let ⟨quotient, remainder⟩ ← product.divide productValues modulus
  let quotientRange ← rangeCheck.placeEach "range_q" quotient
  let remainderRange ← rangeCheck.placeEach "range_r" remainder
  let divisionValues := xs.map fun x =>
    Coefficients.eval modulus x * Coefficients.eval quotient x + Coefficients.eval remainder x
  let residualValues ← Run.ofDomain (differences? productValues divisionValues)
  let residual ← Run.ofDomain (product.interpolation.coefficients? residualValues)
  let carryCheck ← (CarryCheck.ofLayout layout).component.place "t_check" residual
  return {
    out := remainder, left, right, modulus, productValues, quotient, remainder, divisionValues,
    residualValues, leftRange, rightRange, quotientRange, remainderRange, carryCheck }

def component (product : ModularProduct) : Component Input Witness where
  name := s!"FpMul{product.layout.sizes}"
  run input :=
    let count := product.layout.limbCount
    match [input.left, input.right, input.modulus].find? (·.length ≠ count) with
    | some limbs => .misuse (.wrongLength count limbs.length)
    | none => product.multiply input

end ModularProduct

end RsaCircuit
