import RsaCircuit.Proofs.Polynomial.Limbs
import RsaCircuit.Proofs.Registers.Normalization
set_option autoImplicit false

/-!
# Multiplication through values

The product of two polynomials has one coefficient per position that the factors reach, and a list of
that length is found back from its values at as many points.  So interpolating the products of the
values is convolution (`Coefficients.multiply_eq_convolve`), for all coefficients.

For limbs each coefficient is a sum of as many products as the shorter factor has limbs.  While such a
sum fits into the field, no coefficient wraps, and normalising the coefficients gives the digits of
the product of both integers (`Limbs.normalize_convolve`).
-/

namespace RsaCircuit

open Polynomial

namespace Coefficients

variable {p q : Coefficients}

theorem ofCoefficients_convolve (p q : Coefficients) :
    ofCoefficients (convolve p q) = ofCoefficients p * ofCoefficients q := by
  induction p with
  | nil => exact (zero_mul _).symm
  | cons c p ih =>
    rw [convolve, ofCoefficients_add, ofCoefficients_smul, ofCoefficients_cons, ih, C_0, zero_add,
      ofCoefficients_cons, add_mul, mul_assoc]

theorem length_convolve (hp : p ≠ []) (hq : q ≠ []) :
    (convolve p q).length = p.length + q.length - 1 := by
  have hpos : 0 < q.length := List.length_pos_iff.2 hq
  induction p with
  | nil => exact absurd rfl hp
  | cons c p ih =>
    rw [convolve, length_add, length_smul, List.length_cons, List.length_cons]
    cases p with
    | nil =>
      rw [convolve, List.length_nil]
      omega
    | cons d p =>
      rw [ih (List.cons_ne_nil d p), List.length_cons]
      omega

/-- Each coefficient of the product sums the products of coefficients whose positions add up to its
own. -/
theorem getD_convolve (p q : Coefficients) (i : Nat) :
    (convolve p q).getD i 0 = ∑ j ∈ Finset.range (i + 1), p.getD j 0 * q.getD (i - j) 0 := by
  rw [← coeff_ofCoefficients, ofCoefficients_convolve, coeff_mul,
    Finset.Nat.sum_antidiagonal_eq_sum_range_succ fun j k =>
      (ofCoefficients p).coeff j * (ofCoefficients q).coeff k]
  simp only [coeff_ofCoefficients]

/-- Multiplying through values is multiplying coefficient by coefficient, as long as the points
differ. -/
theorem multiply_eq_convolve (hp : p ≠ []) (hq : q ≠ [])
    (hsize : p.length + q.length - 1 ≤ fieldOrder) : multiply p q = convolve p q := by
  have hlength := length_convolve hp hq
  apply eq_of_ofCoefficients_eq
  · rw [hlength]
    apply Interpolation.length_coefficients
    rw [List.length_map, length_points]
  · apply Interpolation.coefficients_eq_of_values hsize
    · rw [← hlength]
      exact degree_ofCoefficients_lt _
    · apply List.map_congr_left
      intro x _
      rw [ofCoefficients_convolve, eval_mul, ofCoefficients_eval, ofCoefficients_eval]

end Coefficients

/-! ## Widths of the registers -/

theorem piecesFor_pos {total size : Nat} (htotal : 0 < total) (hsize : 0 < size) :
    0 < piecesFor total size := by
  have hcover := le_piecesFor_mul total size hsize
  exact Nat.pos_of_mul_pos_right (htotal.trans_le hcover)

namespace Limbs

variable {width bits : Nat} {a b : Limbs}

/-- The convolution is the image of the product of the integer polynomials. -/
theorem ofCoefficients_convolve (a b : Limbs) :
    ofCoefficients (Coefficients.convolve a b) =
      (polynomial a * polynomial b).map (Int.castRingHom Scalar) := by
  rw [Coefficients.ofCoefficients_convolve, Polynomial.map_mul, map_polynomial, map_polynomial]

/-- At most one product of limbs for each limb of the shorter factor adds up at a position. -/
theorem coeff_mul_bounds_min (ha : InRange width a) (hb : InRange width b) (i : Nat) :
    0 ≤ (polynomial a * polynomial b).coeff i ∧
      (polynomial a * polynomial b).coeff i ≤
        (min a.length b.length : Nat) * (pow2 width * pow2 width : Nat) := by
  rcases Nat.le_total a.length b.length with hle | hle
  · rw [Nat.min_eq_left hle]
    exact coeff_mul_bounds ha hb i
  · rw [Nat.min_eq_right hle, mul_comm]
    exact coeff_mul_bounds hb ha i

/-- The coefficients of a product need twice the width of a limb and the length of the shorter
factor. -/
theorem natAbs_coeff_mul_lt (ha : InRange width a) (hb : InRange width b)
    (hbits : bits = 2 * width + bitLength (min a.length b.length)) (i : Nat) :
    ((polynomial a * polynomial b).coeff i).natAbs < pow2 bits := by
  obtain ⟨hlower, hupper⟩ := coeff_mul_bounds_min ha hb i
  have hcount := lt_pow2_bitLength (min a.length b.length)
  have hpow : pow2 bits = pow2 (bitLength (min a.length b.length)) * (pow2 width * pow2 width) := by
    rw [hbits, Nat.two_mul, pow2_add, pow2_add, Nat.mul_comm]
  have hlt := Nat.mul_lt_mul_of_pos_right hcount (Nat.mul_pos (pow2_pos width) (pow2_pos width))
  rw [← Nat.cast_mul] at hupper
  omega

section Convolve

variable (ha : InRange width a) (hb : InRange width b)
  (hbits : bits = 2 * width + bitLength (min a.length b.length)) (hfits : bits ≤ 252)

include ha hb hbits hfits

/-- No coefficient of the product wraps. -/
theorem val_getD_convolve (i : Nat) :
    ((Coefficients.convolve a b).getD i 0).val =
      ∑ j ∈ Finset.range (i + 1), (a.getD j 0).val * (b.getD (i - j) 0).val := by
  have hmax := pow2_le_maxMagnitude hfits
  have hcoeff := natAbs_coeff_mul_lt ha hb hbits
  have htoInt := Registers.toInt_getD_of_map (ofCoefficients_convolve a b)
    (fun i => (Nat.le_of_lt (hcoeff i)).trans hmax) i
  have hsum : (polynomial a * polynomial b).coeff i =
      (∑ j ∈ Finset.range (i + 1), (a.getD j 0).val * (b.getD (i - j) 0).val : Nat) := by
    rw [coeff_mul, Finset.Nat.sum_antidiagonal_eq_sum_range_succ fun j k =>
      (polynomial a).coeff j * (polynomial b).coeff k]
    push_cast
    simp only [coeff_polynomial]
  have hlt := ((Coefficients.convolve a b).getD i 0).isLt
  rw [hsum] at htoInt
  rcases Scalar.toInt_cases ((Coefficients.convolve a b).getD i 0) with ⟨_, heq⟩ | ⟨_, heq⟩
  · omega
  · omega

/-- Normalising the convolution of two lists of limbs gives the digits of the product. -/
theorem normalize_convolve (hpos : 0 < width) (hane : a ≠ []) (hbne : b ≠ []) :
    InRange width (Registers.normalize bits width (Coefficients.convolve a b)) ∧
      value width (Registers.normalize bits width (Coefficients.convolve a b)) =
        value width a * value width b := by
  have hbitspos : 0 < bits := by omega
  have hcoeff := natAbs_coeff_mul_lt ha hb hbits
  have hmax := pow2_le_maxMagnitude hfits
  have hmap := ofCoefficients_convolve a b
  have hregisters : ∀ r ∈ Coefficients.convolve a b,
      r.toInt.natAbs < pow2 (width * piecesFor bits width) := by
    intro r hr
    refine (Registers.natAbs_toInt_of_map hmap hmax hcoeff r hr).trans_le (pow2_le_pow2 ?_)
    rw [Nat.mul_comm]
    exact le_piecesFor_mul bits width hpos
  obtain ⟨hlength, hrange, hmod⟩ := Registers.normalize_digits hpos (by omega) hregisters
  have hdigits := value_lt _ _ hrange
  have hproduct : value width a * value width b <
      pow2 (width * ((Coefficients.convolve a b).length + piecesFor bits width)) := by
    have hpieces := piecesFor_pos hbitspos hpos
    refine (Nat.mul_lt_mul'' (value_lt _ _ ha) (value_lt _ _ hb)).trans_le ?_
    rw [← pow2_add, ← Nat.mul_add, Coefficients.length_convolve hane hbne]
    exact pow2_le_pow2 (Nat.mul_le_mul_left _ (by omega))
  rw [hlength] at hdigits
  rw [Registers.total_of_map hmap fun i => (Nat.le_of_lt (hcoeff i)).trans hmax, eval_mul,
    eval_polynomial, eval_polynomial, ← Nat.cast_mul, Int.natCast_modEq_iff] at hmod
  exact ⟨hrange, Nat.ModEq.eq_of_lt_of_lt hmod hdigits hproduct⟩

end Convolve

end Limbs

end RsaCircuit
