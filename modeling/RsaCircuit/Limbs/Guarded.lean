import RsaCircuit.Limbs.Division
import RsaCircuit.Lists
set_option autoImplicit false

/-!
# Guarded division

Schoolbook division in which every step that has a domain is guarded: each integer quotient and
remainder of scalars refuses a zero divisor, each limb that is read and each part that is cut out has
to lie within its list, and a digit is only taken from a window one limb longer than the divisor.
The rules are those of plain division, so a guard that refuses anything stops the division as a
misuse.  Plain division guards a single divisor, one more than the leading limb, and reads limbs that
are missing as zeros.
-/

namespace RsaCircuit

namespace Limbs

namespace Guarded

/-- A guarded step of an operation that has errors of its own. -/
def step {α : Type} (result : Except Misuse α) : Except (Stop ArithmeticError) α :=
  result.mapError .misuse

/-! ## Multiples -/

def propagate? (base : Scalar) : Scalar → List Scalar → Except Misuse Limbs
  | carry, [] => .ok [carry]
  | carry, column :: columns => do
    let digit ← (column + carry).intMod? base
    let next ← (column + carry).intDiv? base
    let higher ← propagate? base next columns
    return digit :: higher

def scale? (width : Nat) (factor : Scalar) (b : Limbs) : Except Misuse Limbs :=
  propagate? (Scalar.twoPow width) 0 (b.map (factor * ·))

/-! ## One digit -/

def estimate? (width : Nat) (a b : Limbs) : Except Misuse Scalar := do
  let base := Scalar.twoPow width
  let high ← elementAt? b.length a
  let next ← elementAt? (b.length - 1) a
  let quotient ← (high * base + next).intDiv? (b.getLastD 0)
  return if quotient.signedCompare (base - 1) == .gt then base - 1 else quotient

def correct? (width : Nat) (a b : Limbs) (guess : Scalar) : Except Misuse Scalar := do
  let multiple ← scale? width guess b
  return if exceeds multiple a then
      if exceeds (sub width multiple b) a then guess - Scalar.ofNat 2 else guess - 1
    else guess

/-- The division by a leading limb of zero is refused before it is met. -/
def normalizedDigit? (width : Nat) (a b : Limbs) : Except (Stop ArithmeticError) Scalar :=
  if a.length ≠ b.length + 1 then .error (.misuse (.wrongLength (b.length + 1) a.length))
  else if b.getLastD 0 = 0 then .error (.error .divisionByZero)
  else do
    let guess ← step (estimate? width a b)
    step (correct? width a b guess)

def digit? (width : Nat) (a b : Limbs) : Except (Stop ArithmeticError) Scalar :=
  if a.length ≠ b.length + 1 then .error (.misuse (.wrongLength (b.length + 1) a.length))
  else
    match b.getLast? with
    | none => .error (.error .divisionByZero)
    | some leading => do
      let factor ← step ((Scalar.twoPow width).intDiv? (leading + 1))
      let scaledA ← step (scale? width factor a)
      let scaledB ← step (scale? width factor b)
      let above ← step (elementAt? b.length scaledB)
      if above = 0 then do
        let lowA ← step (slice? 0 (b.length + 1) scaledA)
        let lowB ← step (slice? 0 b.length scaledB)
        normalizedDigit? width lowA lowB
      else normalizedDigit? width scaledA scaledB

/-! ## All digits -/

/-- The limbs of the remainder that a digit at `position` is taken from.  For the highest digit, at
position `top`, these are all that there are from there up, and a zero above them. -/
def window? (divisor : Limbs) (top position : Nat) (remainder : Limbs) : Except Misuse Limbs :=
  if position = top then do
    let high ← slice? top remainder.length remainder
    return high ++ [0]
  else slice? position (position + divisor.length + 1) remainder

def reduce? (width : Nat) (divisor : Limbs) (position : Nat) (digit : Scalar) (remainder : Limbs) :
    Except Misuse Limbs := do
  let multiple ← scale? width digit divisor
  return sub width remainder (List.replicate position 0 ++ multiple)

def divideBelow? (width : Nat) (divisor : Limbs) (top : Nat) :
    Nat → Limbs → Except (Stop ArithmeticError) Division
  | 0, remainder => .ok ⟨[], remainder⟩
  | position + 1, remainder => do
    let dividend ← step (window? divisor top position remainder)
    let digit ← digit? width dividend divisor
    let rest ← step (reduce? width divisor position digit remainder)
    let low ← divideBelow? width divisor top position rest
    return ⟨low.quotient ++ [digit], low.remainder⟩

/-- Divides the lowest `b.length + extra` limbs of `a` by `b`. -/
def divide? (width extra : Nat) (a b : Limbs) : Except (Stop ArithmeticError) Division :=
  let significant := (trim b).length
  if significant = 0 then .error (.error .divisionByZero)
  else do
    let divisor ← step (slice? 0 significant b)
    let length := b.length + extra
    let top := length - significant
    let result ← divideBelow? width divisor top (top + 1) (resize length a)
    return ⟨result.quotient, result.remainder.take b.length⟩

end Guarded

end Limbs

end RsaCircuit
