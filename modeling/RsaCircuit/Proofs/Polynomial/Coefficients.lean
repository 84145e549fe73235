import Mathlib.Algebra.Polynomial.Eval.Degree
import Mathlib.Algebra.Polynomial.RingDivision
import Mathlib.Data.List.GetD
import RsaCircuit.Polynomial.Coefficients
import RsaCircuit.Proofs.Scalar.Field
set_option autoImplicit false

/-!
# Coefficient lists as polynomials

`ofCoefficients` reads a list over any commutative ring as a polynomial, so that integers and scalars
share one reading.  Each operation on coefficient lists is the operation on polynomials, and a list
of known length is determined by its polynomial (`eq_of_ofCoefficients_eq`).
-/

namespace RsaCircuit

open Polynomial

section Reading

variable {R : Type} [CommRing R]

/-- The polynomial with the given coefficients, the constant one first. -/
noncomputable def ofCoefficients : List R → R[X]
  | [] => 0
  | c :: cs => C c + X * ofCoefficients cs

@[simp] theorem ofCoefficients_nil : ofCoefficients ([] : List R) = 0 := rfl

@[simp] theorem ofCoefficients_cons (c : R) (cs : List R) :
    ofCoefficients (c :: cs) = C c + X * ofCoefficients cs := rfl

theorem coeff_ofCoefficients (cs : List R) (i : Nat) :
    (ofCoefficients cs).coeff i = cs.getD i 0 := by
  induction cs generalizing i with
  | nil => rw [ofCoefficients_nil, coeff_zero, List.getD_nil]
  | cons c cs ih =>
    cases i with
    | zero => rw [ofCoefficients_cons, coeff_add, coeff_C_zero, coeff_X_mul_zero, add_zero,
        List.getD_cons_zero]
    | succ i => rw [ofCoefficients_cons, coeff_add, coeff_C_succ, coeff_X_mul, zero_add, ih,
        List.getD_cons_succ]

theorem degree_ofCoefficients_lt (cs : List R) : (ofCoefficients cs).degree < cs.length := by
  rw [degree_lt_iff_coeff_zero]
  intro i hi
  rw [coeff_ofCoefficients, List.getD_eq_default _ _ hi]

theorem map_ofCoefficients {S : Type} [CommRing S] (f : R →+* S) (cs : List R) :
    (ofCoefficients cs).map f = ofCoefficients (cs.map f) := by
  induction cs with
  | nil => exact Polynomial.map_zero f
  | cons c cs ih =>
    rw [ofCoefficients_cons, Polynomial.map_add, Polynomial.map_C, Polynomial.map_mul,
      Polynomial.map_X, ih, List.map_cons, ofCoefficients_cons]

theorem eval_ofCoefficients_cons (c : R) (cs : List R) (x : R) :
    (ofCoefficients (c :: cs)).eval x = c + x * (ofCoefficients cs).eval x := by
  rw [ofCoefficients_cons, eval_add, eval_C, eval_mul, eval_X]

/-- Lists of one length are equal if they have the same polynomial. -/
theorem eq_of_ofCoefficients_eq {cs ds : List R} (hlength : cs.length = ds.length)
    (h : ofCoefficients cs = ofCoefficients ds) : cs = ds := by
  apply List.ext_getElem hlength
  intro i hi hi'
  rw [← List.getD_eq_getElem cs 0 hi, ← List.getD_eq_getElem ds 0 hi', ← coeff_ofCoefficients, h,
    coeff_ofCoefficients]

end Reading

namespace Coefficients

theorem ofCoefficients_eval (p : Coefficients) (x : Scalar) :
    (ofCoefficients p).eval x = p.eval x := by
  induction p with
  | nil => exact eval_zero
  | cons c p ih => rw [eval_ofCoefficients_cons, ih, eval_cons, add_comm, mul_comm]

theorem ofCoefficients_headD_tail (q : Coefficients) :
    C (q.headD 0) + X * ofCoefficients q.tail = ofCoefficients q := by
  cases q with
  | nil => rw [List.headD_nil, List.tail_nil, ofCoefficients_nil, C_0, mul_zero, add_zero]
  | cons d q => rfl

theorem ofCoefficients_add (p q : Coefficients) :
    ofCoefficients (add p q) = ofCoefficients p + ofCoefficients q := by
  induction p generalizing q with
  | nil => exact (zero_add _).symm
  | cons c p ih =>
    rw [add, ofCoefficients_cons, ih, C_add, mul_add, ← ofCoefficients_headD_tail q,
      ofCoefficients_cons]
    exact add_add_add_comm _ _ _ _

theorem ofCoefficients_smul (factor : Scalar) (p : Coefficients) :
    ofCoefficients (smul factor p) = C factor * ofCoefficients p := by
  induction p with
  | nil => exact (mul_zero _).symm
  | cons c p ih =>
    have hcons : smul factor (c :: p) = factor * c :: smul factor p := rfl
    rw [hcons, ofCoefficients_cons, ih, ofCoefficients_cons, C_mul, mul_add]
    exact congrArg _ (mul_left_comm _ _ _)

theorem ofCoefficients_timesRoot (root : Scalar) (p : Coefficients) :
    ofCoefficients (timesRoot root p) = (X - C root) * ofCoefficients p := by
  rw [timesRoot, ofCoefficients_add, ofCoefficients_smul, ofCoefficients_cons, C_0, C_neg, zero_add,
    sub_mul, neg_mul, ← sub_eq_add_neg]

/-- Synthetic division is division by `X - root` with remainder. -/
theorem ofCoefficients_divRoot (root : Scalar) (p : Coefficients) :
    ofCoefficients p =
      (X - C root) * ofCoefficients (divRoot root p).1 + C (divRoot root p).2 := by
  induction p with
  | nil => rw [divRoot, ofCoefficients_nil, mul_zero, C_0, add_zero]
  | cons c p ih =>
    cases p with
    | nil => rw [divRoot, ofCoefficients_cons, ofCoefficients_nil, mul_zero, mul_zero, add_zero,
        zero_add]
    | cons d p =>
      rw [ofCoefficients_cons, ih, divRoot, ofCoefficients_cons, C_add, C_mul]
      ring

theorem divRoot_remainder (root : Scalar) (p : Coefficients) :
    (divRoot root p).2 = (ofCoefficients p).eval root := by
  rw [ofCoefficients_divRoot root p, eval_add, eval_mul, eval_sub, eval_X, eval_C, sub_self,
    zero_mul, zero_add, eval_C]

theorem ofCoefficients_replicate_zero (count : Nat) :
    ofCoefficients (List.replicate count (0 : Scalar)) = 0 := by
  induction count with
  | zero => rfl
  | succ count ih => rw [List.replicate_succ, ofCoefficients_cons, ih, C_0, mul_zero, add_zero]

/-- Zeros at the end of a list do not change its polynomial. -/
theorem ofCoefficients_append_zeros (p : Coefficients) (count : Nat) :
    ofCoefficients (p ++ List.replicate count 0) = ofCoefficients p := by
  induction p with
  | nil => exact ofCoefficients_replicate_zero count
  | cons c p ih => rw [List.cons_append, ofCoefficients_cons, ih, ofCoefficients_cons]

end Coefficients

end RsaCircuit
