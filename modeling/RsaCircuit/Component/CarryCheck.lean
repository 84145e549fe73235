import RsaCircuit.Layout
import RsaCircuit.Component.Bits
set_option autoImplicit false

/-!
# Carry check: registers that stand for zero

Signed registers stand for the integer zero iff the carries from one into the next are exact and the
last register cancels the last carry.  In the field every division is exact, so the check rests on
the range of the carries: each one is biased to be nonnegative and then split into `rangeBits` bits.
A carry that is exact only in the field is far out of that range.
-/

namespace RsaCircuit

/-- A carry check for `count` registers of `bits` bits, as digits to base `2 ^ width`. -/
structure CarryCheck where
  width : Nat
  bits : Nat
  count : Nat
  bits_le : bits + carrySlack ≤ maxRangeCheckBits
  two_le_count : 2 ≤ count
  deriving Repr

namespace CarryCheck

def ofSizes? (width bits count : Nat) : Except Misuse CarryCheck :=
  if bits_le : bits + carrySlack ≤ maxRangeCheckBits then
    if two_le_count : 2 ≤ count then .ok { width, bits, count, bits_le, two_le_count }
    else .error .tooFewRegisters
  else .error (.carriesTooWide bits)

/-- The carry check for the residual of a modular product. -/
def ofLayout (layout : Layout) : CarryCheck where
  width := layout.limbBits
  bits := layout.carryBits
  count := layout.productLength
  bits_le := layout.carryBits_add_slack_le
  two_le_count := layout.two_le_productLength

/-- Width of the range check of a biased carry.  A check that runs has at least one bit of it. -/
def rangeBits (check : CarryCheck) : Nat := check.bits + carrySlack - check.width

/-- What is added to a carry before its range check, half the range. -/
def bias (check : CarryCheck) : Scalar := Scalar.twoPow (check.rangeBits - 1)

/-- The carries out of a list of registers, with their range checks. -/
structure Carries where
  carry : List Scalar
  rangeChecks : List BitSplit.Witness
  deriving DecidableEq, Repr, Inhabited

/-- The signals of a carry check. -/
structure Witness where
  input : List Scalar
  /-- The carries, one per register but the last. -/
  carry : List Scalar
  rangeChecks : List BitSplit.Witness
  deriving DecidableEq, Repr, Inhabited

def Witness.signals (w : Witness) : List Scalar :=
  List.flatten [w.input, w.carry, w.rangeChecks.flatMap BitSplit.Witness.signals]

/-- Carries through the registers from position `i` up, with `carry` coming in.  There has to be a last
register. -/
def carryFrom (check : CarryCheck) (base inverse : Scalar) :
    Nat → Scalar → List Scalar → Run Carries
  | _, _, [] => .misuse (.outOfBounds 1 0)
  | _, carry, [last] => do
    Run.assertZero (last + carry) "last register cancels the final carry"
    return ⟨[], []⟩
  | i, carry, register :: next :: rest => do
    let incoming := register + carry
    let outgoing := incoming * inverse
    Run.assertEqual incoming (outgoing * base) "carry is exact"
    let rangeCheck ← (BitSplit.component check.rangeBits).place s!"carry_range_checks[{i}]"
      (outgoing + check.bias)
    let higher ← check.carryFrom base inverse (i + 1) outgoing (next :: rest)
    return ⟨outgoing :: higher.carry, rangeCheck :: higher.rangeChecks⟩

def component (check : CarryCheck) : Component (List Scalar) Witness where
  name := s!"CheckCarryToZero({check.width}, {check.bits}, {check.count})"
  run input :=
    if input.length ≠ check.count then .misuse (.wrongLength check.count input.length)
    else if check.bits + carrySlack ≤ check.width then .misuse (.limbsTooWide check.width)
    else do
      let base := Scalar.twoPow check.width
      let inverse ← Run.ofDomain (Scalar.div? 1 base)
      let carries ← check.carryFrom base inverse 0 0 input
      return { input, carry := carries.carry, rangeChecks := carries.rangeChecks }

end CarryCheck

end RsaCircuit
