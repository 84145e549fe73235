import RsaCircuit.Polynomial.Coefficients
set_option autoImplicit false

/-!
# Interpolation at the points 0, 1, 2, …

A polynomial with at most `size` coefficients is determined by its values at the points
`0, …, size - 1`.  The *vanishing* polynomial is zero at all of them.  Divided by `x - i` it is zero at
all points but `i`, and scaled by the *weight* of `i`, the inverse product of the differences between
`i` and the other points, it is one at `i`.  These scaled quotients are the *basis*: the polynomial
with given values is the sum of the basis, each member multiplied by its value.

Multiplying two polynomials by their values at enough points and interpolating the products gives
the coefficients of their product (`multiply`).
-/

namespace RsaCircuit

/-- The points `0, …, count - 1`. -/
def points (count : Nat) : List Scalar := (List.range count).map Scalar.ofNat

@[simp] theorem length_points (count : Nat) : (points count).length = count := by simp [points]

/-- A basis of the polynomials with at most `size` coefficients: for each point below `size` the one
that is one there and zero at the other points. -/
structure Interpolation where
  size : Nat
  basis : List Coefficients
  deriving DecidableEq, Repr, Inhabited

namespace Interpolation

/-! ## The basis -/

/-- The product of `x - i` over the points `i` below the bound. -/
def vanishing : Nat → Coefficients
  | 0 => [1]
  | i + 1 => Coefficients.timesRoot (Scalar.ofNat i) (vanishing i)

/-- The product of the differences between `i` and the other points below `size`. -/
def difference (size i : Nat) : Scalar :=
  Scalar.product (((List.range size).filter (· != i)).map fun j => Scalar.ofNat i - Scalar.ofNat j)

/-- The polynomial that is one at `i` and zero at the other points below `size`, from the polynomial
that vanishes at all of them.  Dividing that one by `x - i` leaves no remainder. -/
def basisAt (size : Nat) (master : Coefficients) (i : Nat) : Coefficients :=
  Coefficients.smul (difference size i)⁻¹ (Coefficients.divRoot (Scalar.ofNat i) master).1

/-- The basis for the points below `size`. -/
def ofSize (size : Nat) : Interpolation :=
  { size, basis := (List.range size).map (basisAt size (vanishing size)) }

/-! ## Interpolating -/

/-- The coefficients of the polynomial with the given values at the points. -/
def coefficients (scheme : Interpolation) (values : List Scalar) : Coefficients :=
  (List.zipWith Coefficients.smul values scheme.basis).foldr Coefficients.add
    (List.replicate scheme.size 0)

/-- The coefficients, for exactly one value per point. -/
def coefficients? (scheme : Interpolation) (values : List Scalar) : Except Misuse Coefficients :=
  if values.length = scheme.size then .ok (scheme.coefficients values)
  else .error (.wrongLength scheme.size values.length)

@[simp] theorem size_ofSize (size : Nat) : (ofSize size).size = size := rfl

theorem length_vanishing (size : Nat) : (vanishing size).length = size + 1 := by
  induction size with
  | zero => rfl
  | succ size ih => rw [vanishing, Coefficients.length_timesRoot, ih]

theorem length_basisAt (size i : Nat) : (basisAt size (vanishing size) i).length = size := by
  rw [basisAt, Coefficients.length_smul, Coefficients.length_divRoot, length_vanishing,
    Nat.add_sub_cancel]

end Interpolation

namespace Coefficients

/-- The product of two polynomials, through their values at enough points. -/
def multiply (p q : Coefficients) : Coefficients :=
  let size := p.length + q.length - 1
  (Interpolation.ofSize size).coefficients ((points size).map fun x => p.eval x * q.eval x)

end Coefficients

end RsaCircuit
