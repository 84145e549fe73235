import RsaCircuit.Limbs.Arithmetic
set_option autoImplicit false

/-!
# Limbs: schoolbook division

Division produces one quotient digit at a time, from the most significant one down.  A digit is the
quotient of a *window* of the running remainder, one limb longer than the divisor, and is found in
two steps.  First both operands are scaled so that the leading limb of the divisor reaches half the
base.  Then the digit is estimated from the two leading limbs of the window and the leading limb of
the divisor, clamped to the largest digit, and lowered at most twice until its multiple of the
divisor no longer exceeds the window.

Zero limbs at the most significant end of the divisor are dropped first, so that its leading limb is
not zero.
-/

namespace RsaCircuit

namespace Limbs

/-! ## One digit -/

/-- The digit estimated from the two leading limbs of `a` and the leading limb of `b`, clamped to
the largest digit.  `a` is one limb longer than `b`. -/
def estimate (width : Nat) (a b : Limbs) : Scalar :=
  let base := Scalar.twoPow width
  let quotient := (a.getD b.length 0 * base + a.getD (b.length - 1) 0).intDiv (b.getLastD 0)
  if quotient.signedCompare (base - 1) == .gt then base - 1 else quotient

/-- Lowers an estimate once if its multiple of `b` exceeds `a`, and twice if one multiple less still
does. -/
def correct (width : Nat) (a b : Limbs) (guess : Scalar) : Scalar :=
  let multiple := scale width guess b
  if exceeds multiple a then
    if exceeds (sub width multiple b) a then guess - Scalar.ofNat 2 else guess - 1
  else guess

/-- The quotient digit of `a` by `b` for a divisor whose leading limb is at least half the base. -/
def normalizedDigit? (width : Nat) (a b : Limbs) : Except ArithmeticError Scalar :=
  if b.getLastD 0 = 0 then .error .divisionByZero
  else .ok (correct width a b (estimate width a b))

/-- The quotient digit of `a` by any divisor `b`, where `a` is one limb longer than `b`.  Both are
scaled by the base over one more than the leading limb of `b`; an empty divisor counts as zero. -/
def digit? (width : Nat) (a b : Limbs) : Except (Stop ArithmeticError) Scalar :=
  match b.getLast? with
  | none => .error (.error .divisionByZero)
  | some leading =>
    if leading + 1 = 0 then .error (.misuse .zeroDivisor)
    else
      let factor := (Scalar.twoPow width).intDiv (leading + 1)
      let scaledA := scale width factor a
      let scaledB := scale width factor b
      let digit :=
        if scaledB.getD b.length 0 = 0 then
          normalizedDigit? width (scaledA.take (b.length + 1)) (scaledB.take b.length)
        else normalizedDigit? width scaledA scaledB
      digit.mapError .error

/-! ## All digits -/

/-- Quotient and remainder. -/
structure Division where
  quotient : Limbs
  remainder : Limbs
  deriving DecidableEq, Repr, Inhabited

/-- The limbs of the remainder that a digit at `position` is taken from. -/
def window (divisor : Limbs) (position : Nat) (remainder : Limbs) : Limbs :=
  resize (divisor.length + 1) (remainder.drop position)

/-- What is left of the remainder after taking `digit` times the divisor at `position`. -/
def reduce (width : Nat) (divisor : Limbs) (position : Nat) (digit : Scalar) (remainder : Limbs) :
    Limbs :=
  sub width remainder (List.replicate position 0 ++ scale width digit divisor)

/-- Takes the quotient digits at the positions below `count` out of the remainder, the highest
first. -/
def divideBelow (width : Nat) (divisor : Limbs) :
    Nat → Limbs → Except (Stop ArithmeticError) Division
  | 0, remainder => .ok ⟨[], remainder⟩
  | position + 1, remainder => do
    let digit ← digit? width (window divisor position remainder) divisor
    let low ← divideBelow width divisor position (reduce width divisor position digit remainder)
    return ⟨low.quotient ++ [digit], low.remainder⟩

/-- Divides the lowest `b.length + extra` limbs of `a` by `b`.  The remainder is as long as `b`; the
quotient has `extra + 1` limbs and one more for each zero limb dropped from the divisor. -/
def divide? (width extra : Nat) (a b : Limbs) : Except (Stop ArithmeticError) Division :=
  let divisor := trim b
  if divisor = [] then .error (.error .divisionByZero)
  else do
    let length := b.length + extra
    let result ← divideBelow width divisor (length - divisor.length + 1) (resize length a)
    return ⟨result.quotient, result.remainder.take b.length⟩

/-- How many zero limbs division drops from the most significant end of a divisor. -/
def leadingZeros (b : Limbs) : Nat := b.length - (trim b).length

end Limbs

end RsaCircuit
