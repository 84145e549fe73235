import RsaCircuit.Proofs.Polynomial.Interpolation
import RsaCircuit.Proofs.Registers
set_option autoImplicit false

/-!
# Limbs as polynomials over the integers

A big integer is the value at `2 ^ width` of the polynomial that has its limbs as coefficients, so a
product of big integers is the value of a product of polynomials.  The circuit computes with the
images of these polynomials over the scalars.  As long as the integer coefficients are small, no
image wraps, and the registers of the image stand for the value of the integer polynomial
(`Registers.total_of_map`).
-/

namespace RsaCircuit

open Polynomial

namespace Limbs

variable {width : Nat}

/-- The integer polynomial with the limbs as coefficients. -/
noncomputable def polynomial (xs : Limbs) : ℤ[X] := ofCoefficients (xs.map fun x => (x.val : ℤ))

theorem polynomial_cons (x : Scalar) (xs : Limbs) :
    polynomial (x :: xs) = C (x.val : ℤ) + X * polynomial xs := rfl

theorem coeff_polynomial (xs : Limbs) (i : Nat) : (polynomial xs).coeff i = (xs.getD i 0).val := by
  have hmap : (xs.map fun x => (x.val : ℤ)).getD i ((0 : Scalar).val : ℤ) = (xs.getD i 0).val :=
    List.getD_map _ _ _
  rw [polynomial, coeff_ofCoefficients]
  exact hmap

theorem eval_polynomial (xs : Limbs) :
    (polynomial xs).eval (pow2 width : ℤ) = value width xs := by
  induction xs with
  | nil => exact eval_zero
  | cons x xs ih =>
    rw [polynomial_cons, eval_add, eval_C, eval_mul, eval_X, ih, value_cons, Nat.cast_add,
      Nat.cast_mul]

/-- Over the scalars the limbs are the coefficients. -/
theorem map_polynomial (xs : Limbs) :
    (polynomial xs).map (Int.castRingHom Scalar) = ofCoefficients xs := by
  have hcast : (Int.castRingHom Scalar) ∘ (fun x : Scalar => (x.val : ℤ)) = id := by
    funext x
    exact (Int.cast_natCast x.val).trans (Scalar.natCast_val x)
  rw [polynomial, map_ofCoefficients, List.map_map, hcast, List.map_id]

theorem natDegree_polynomial_le (xs : Limbs) : (polynomial xs).natDegree ≤ xs.length - 1 := by
  rw [natDegree_le_iff_coeff_eq_zero]
  intro i hi
  rw [coeff_polynomial, List.getD_eq_default _ _ (by omega), Scalar.val_zero, Nat.cast_zero]

/-- At most one product of limbs for each limb of `a` adds up at a position. -/
theorem coeff_mul_bounds {a b : Limbs} (ha : InRange width a) (hb : InRange width b) (i : Nat) :
    0 ≤ (polynomial a * polynomial b).coeff i ∧
      (polynomial a * polynomial b).coeff i ≤ a.length * (pow2 width * pow2 width : Nat) := by
  induction a generalizing i with
  | nil =>
    have hzero : polynomial [] * polynomial b = 0 := zero_mul _
    rw [hzero, coeff_zero, List.length_nil, Nat.cast_zero, zero_mul]
    exact ⟨le_refl 0, le_refl 0⟩
  | cons x a ih =>
    obtain ⟨hx, ha⟩ := (inRange_cons width x a).1 ha
    have hterm : x.val * (b.getD i 0).val ≤ pow2 width * pow2 width :=
      Nat.mul_le_mul (Nat.le_of_lt hx) (Nat.le_of_lt (hb.getD i))
    have hlength : ((x :: a).length : ℤ) * (pow2 width * pow2 width : Nat) =
        a.length * (pow2 width * pow2 width : Nat) + (pow2 width * pow2 width : Nat) := by
      rw [List.length_cons]
      push_cast
      ring
    rw [polynomial_cons, add_mul, mul_assoc, coeff_add, coeff_C_mul, coeff_polynomial,
      ← Nat.cast_mul, hlength]
    cases i with
    | zero =>
      have hpos : 0 ≤ (a.length : ℤ) * (pow2 width * pow2 width : Nat) := by positivity
      rw [coeff_X_mul_zero]
      omega
    | succ i =>
      obtain ⟨hlower, hupper⟩ := ih ha i
      rw [coeff_X_mul]
      omega

end Limbs

namespace Registers

variable {width : Nat} {registers : Registers} {f : ℤ[X]}

theorem total_eq_eval (registers : Registers) :
    total width registers =
      (ofCoefficients (registers.map Scalar.toInt)).eval (pow2 width : ℤ) := by
  induction registers with
  | nil => exact eval_zero.symm
  | cons register registers ih =>
    rw [total_cons, ih, List.map_cons, eval_ofCoefficients_cons]

/-- Registers of the image of a polynomial with small coefficients are its coefficients. -/
theorem toInt_getD_of_map (hmap : ofCoefficients registers = f.map (Int.castRingHom Scalar))
    (hbound : ∀ i, (f.coeff i).natAbs ≤ maxMagnitude) (i : Nat) :
    (registers.getD i 0).toInt = f.coeff i := by
  refine Scalar.toInt_eq_of_cast (hbound i) ?_
  rw [← coeff_ofCoefficients, hmap, coeff_map]
  rfl

/-- The signed readings of such registers are the coefficients of the integer polynomial. -/
theorem ofCoefficients_map_toInt_of_map
    (hmap : ofCoefficients registers = f.map (Int.castRingHom Scalar))
    (hbound : ∀ i, (f.coeff i).natAbs ≤ maxMagnitude) :
    ofCoefficients (registers.map Scalar.toInt) = f := by
  ext i
  have hgetD : (registers.map Scalar.toInt).getD i (Scalar.toInt 0) =
      (registers.getD i 0).toInt := List.getD_map _ _ _
  rw [Scalar.toInt_zero] at hgetD
  rw [coeff_ofCoefficients, hgetD, toInt_getD_of_map hmap hbound]

theorem total_of_map (hmap : ofCoefficients registers = f.map (Int.castRingHom Scalar))
    (hbound : ∀ i, (f.coeff i).natAbs ≤ maxMagnitude) :
    total width registers = f.eval (pow2 width : ℤ) := by
  rw [total_eq_eval, ofCoefficients_map_toInt_of_map hmap hbound]

/-- Every register of the image is a coefficient. -/
theorem natAbs_toInt_of_map (hmap : ofCoefficients registers = f.map (Int.castRingHom Scalar))
    {bound : Nat} (hfits : bound ≤ maxMagnitude) (hbound : ∀ i, (f.coeff i).natAbs < bound) :
    ∀ r ∈ registers, r.toInt.natAbs < bound := by
  intro r hr
  obtain ⟨i, hi, rfl⟩ := List.getElem_of_mem hr
  rw [← List.getD_eq_getElem _ 0 hi,
    toInt_getD_of_map hmap fun j => (Nat.le_of_lt (hbound j)).trans hfits]
  exact hbound i

/-- Registers interpolated from the values of the image of a polynomial over the integers. -/
theorem coefficients_of_values {size : Nat} (hsize : size ≤ fieldOrder)
    (hdegree : f.natDegree < size) {values : List Scalar}
    (hvalues : values = (points size).map fun x => (f.map (Int.castRingHom Scalar)).eval x) :
    ofCoefficients ((Interpolation.ofSize size).coefficients values) =
      f.map (Int.castRingHom Scalar) := by
  refine Interpolation.coefficients_eq_of_values hsize ?_ hvalues
  calc (f.map (Int.castRingHom Scalar)).degree ≤ f.degree := degree_map_le
    _ ≤ f.natDegree := degree_le_natDegree
    _ < size := Nat.cast_lt.2 hdegree

end Registers

end RsaCircuit
