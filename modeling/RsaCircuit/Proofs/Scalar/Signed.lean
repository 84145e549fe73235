import RsaCircuit.Proofs.Scalar.Field
set_option autoImplicit false

/-!
# The signed reading of scalars

Every residue class has exactly one integer between `-maxMagnitude` and `maxMagnitude`, and the
signed reading is that integer.  So an equation between scalars is an equation between integers as
soon as both sides are known to be small (`intCast_inj_of_lt`), and the signed order is the order of
the integers.
-/

namespace RsaCircuit

/-- The largest absolute value of a signed reading. -/
def maxMagnitude : Nat := (fieldOrder - 1) / 2

theorem fieldOrder_eq : fieldOrder = 2 * maxMagnitude + 1 := by decide

theorem pow2_252_le_maxMagnitude : pow2 252 ≤ maxMagnitude := by decide

theorem pow2_le_pow2 {m n : Nat} (h : m ≤ n) : pow2 m ≤ pow2 n :=
  Nat.pow_le_pow_right (by decide) h

theorem pow2_lt_pow2 {m n : Nat} (h : m < n) : pow2 m < pow2 n :=
  Nat.pow_lt_pow_right (by decide) h

theorem pow2_le_maxMagnitude {n : Nat} (h : n ≤ 252) : pow2 n ≤ maxMagnitude :=
  (pow2_le_pow2 h).trans pow2_252_le_maxMagnitude

theorem pow2_lt_fieldOrder {n : Nat} (h : n ≤ 253) : pow2 n < fieldOrder :=
  Nat.lt_of_le_of_lt (pow2_le_pow2 h) (by decide)

namespace Scalar

/-! ## Quotient and remainder by a power of two -/

section TwoPow

variable {n : Nat} (h : n ≤ 253)

include h

theorem val_twoPow : (twoPow n).val = pow2 n := val_natCast_of_lt (pow2_lt_fieldOrder h)

theorem val_intMod_twoPow (x : Scalar) : (x.intMod (twoPow n)).val = x.val % pow2 n := by
  rw [val_intMod, val_twoPow h]

theorem val_intDiv_twoPow (x : Scalar) : (x.intDiv (twoPow n)).val = x.val / pow2 n := by
  rw [val_intDiv, val_twoPow h]

end TwoPow

/-! ## Signed readings -/

theorem isNegative_iff (x : Scalar) : x.isNegative = true ↔ maxMagnitude < x.val := by
  simp [isNegative, maxMagnitude]

theorem val_neg_of_ne_zero {x : Scalar} (h : x ≠ 0) : (-x).val = fieldOrder - x.val := by
  have hpos : x.val ≠ 0 := fun h0 => h (ext_val h0)
  have hlt := x.isLt
  rw [val_neg, Nat.mod_eq_of_lt (by omega)]

theorem toInt_of_le {x : Scalar} (h : x.val ≤ maxMagnitude) : x.toInt = x.val := by
  have hneg : ¬ x.isNegative = true := by rw [isNegative_iff]; omega
  rw [toInt, if_neg hneg]

theorem toInt_of_lt {x : Scalar} (h : maxMagnitude < x.val) : x.toInt = x.val - fieldOrder := by
  have hne : x ≠ 0 := by
    rintro rfl
    exact absurd h (Nat.not_lt_zero _)
  have hlt := x.isLt
  rw [toInt, if_pos ((isNegative_iff x).2 h), val_neg_of_ne_zero hne]
  omega

/-- The signed reading is the representative, or the representative less the field order. -/
theorem toInt_cases (x : Scalar) :
    (x.val ≤ maxMagnitude ∧ x.toInt = x.val) ∨
      (maxMagnitude < x.val ∧ x.toInt = x.val - fieldOrder) := by
  rcases Nat.lt_or_ge maxMagnitude x.val with h | h
  · exact Or.inr ⟨h, toInt_of_lt h⟩
  · exact Or.inl ⟨h, toInt_of_le h⟩

/-! ## Bounds and uniqueness -/

theorem natAbs_toInt_le (x : Scalar) : x.toInt.natAbs ≤ maxMagnitude := by
  have hlt := x.isLt
  have hp := fieldOrder_eq
  rcases toInt_cases x with ⟨h, heq⟩ | ⟨h, heq⟩ <;> omega

@[simp] theorem intCast_toInt (x : Scalar) : (x.toInt : Scalar) = x := by
  rcases toInt_cases x with ⟨_, heq⟩ | ⟨_, heq⟩
  · rw [heq, Int.cast_natCast, natCast_val]
  · have hzero : ((fieldOrder : Int) : Scalar) = 0 := (intCast_eq_zero_iff _).2 (dvd_refl _)
    rw [heq, Int.cast_sub, hzero, sub_zero, Int.cast_natCast, natCast_val]

theorem intCast_inj_of_lt {z w : Int} (hlt : (z - w).natAbs < fieldOrder)
    (h : (z : Scalar) = w) : z = w := by
  have hdvd : (fieldOrder : Int) ∣ z - w := by
    rw [← intCast_eq_zero_iff, Int.cast_sub, h, sub_self]
  have hzero : z - w = 0 := Int.eq_zero_of_dvd_of_natAbs_lt_natAbs hdvd (by simpa using hlt)
  omega

theorem toInt_intCast {z : Int} (h : z.natAbs ≤ maxMagnitude) : (z : Scalar).toInt = z := by
  refine intCast_inj_of_lt ?_ (intCast_toInt (z : Scalar))
  have hbound := natAbs_toInt_le (z : Scalar)
  have hp := fieldOrder_eq
  omega

/-- A scalar that an integer of small magnitude is congruent to reads as this integer. -/
theorem toInt_eq_of_cast {x : Scalar} {z : Int} (hz : z.natAbs ≤ maxMagnitude)
    (h : (z : Scalar) = x) : x.toInt = z := by
  rw [← h, toInt_intCast hz]

/-- A scalar that an integer of the field's range is congruent to has this representative. -/
theorem val_eq_of_cast {x : Scalar} {z : Int} (hnonneg : 0 ≤ z) (hlt : z < fieldOrder)
    (h : (z : Scalar) = x) : (x.val : Int) = z := by
  have hx := x.isLt
  refine intCast_inj_of_lt (by omega) ?_
  rw [Int.cast_natCast, natCast_val, h]

theorem toInt_add {x y : Scalar} (h : (x.toInt + y.toInt).natAbs ≤ maxMagnitude) :
    (x + y).toInt = x.toInt + y.toInt :=
  toInt_eq_of_cast h (by rw [Int.cast_add, intCast_toInt, intCast_toInt])

theorem toInt_neg (x : Scalar) : (-x).toInt = -x.toInt := by
  refine toInt_eq_of_cast ?_ (by rw [Int.cast_neg, intCast_toInt])
  rw [Int.natAbs_neg]
  exact natAbs_toInt_le x

theorem toInt_eq_zero_iff (x : Scalar) : x.toInt = 0 ↔ x = 0 := by
  constructor
  · intro h
    rw [← intCast_toInt x, h, Int.cast_zero]
  · rintro rfl
    rfl

theorem toInt_zero : (0 : Scalar).toInt = 0 := (toInt_eq_zero_iff 0).2 rfl

theorem isNegative_iff_toInt (x : Scalar) : x.isNegative = true ↔ x.toInt < 0 := by
  have hlt := x.isLt
  rw [isNegative_iff]
  rcases toInt_cases x with ⟨h, heq⟩ | ⟨h, heq⟩ <;> omega

theorem val_magnitude (x : Scalar) : x.magnitude.val = x.toInt.natAbs := by
  unfold magnitude toInt
  split
  · rw [Int.natAbs_neg, Int.natAbs_natCast]
  · rw [Int.natAbs_natCast]

/-! ## Ranges around zero -/

/-- The representative of a scalar that is raised by half of a range. -/
theorem val_add_half {half : Nat} (hhalf : half ≤ maxMagnitude) (x : Scalar) :
    ((x + (half : Scalar)).val : Int) =
      if -(half : Int) ≤ x.toInt then x.toInt + half else x.toInt + half + fieldOrder := by
  have hbound := natAbs_toInt_le x
  have hp := fieldOrder_eq
  have hcast : ((x.toInt + half : Int) : Scalar) = x + (half : Scalar) := by
    rw [Int.cast_add, intCast_toInt, Int.cast_natCast]
  split
  · exact val_eq_of_cast (by omega) (by omega) hcast
  · have hzero : ((fieldOrder : Int) : Scalar) = 0 := (intCast_eq_zero_iff _).2 (dvd_refl _)
    refine val_eq_of_cast (by omega) (by omega) ?_
    rw [Int.cast_add, hcast, hzero, add_zero]

/-- Raised by half of a range, a scalar is in the range iff its signed reading is at most that far
from zero: what is further off does not wrap back into the range. -/
theorem val_add_half_lt_iff {half : Nat} (hhalf : half ≤ maxMagnitude) (x : Scalar) :
    (x + (half : Scalar)).val < 2 * half ↔ -(half : Int) ≤ x.toInt ∧ x.toInt < half := by
  have hbound := natAbs_toInt_le x
  have hp := fieldOrder_eq
  have hval := val_add_half hhalf x
  split at hval <;> omega

/-! ## Order -/

theorem compare_nat_eq_int (m n : Nat) : compare (m : Int) (n : Int) = compare m n := by
  rcases Nat.lt_trichotomy m n with h | h | h
  · rw [compare_lt_iff_lt.2 h, compare_lt_iff_lt.2 (Int.ofNat_lt.2 h)]
  · rw [h, compare_eq_iff_eq.2 rfl, compare_eq_iff_eq.2 rfl]
  · rw [compare_gt_iff_gt.2 h, compare_gt_iff_gt.2 (Int.ofNat_lt.2 h)]

/-- The signed comparison is the comparison of the signed readings. -/
theorem signedCompare_eq (x y : Scalar) : x.signedCompare y = compare x.toInt y.toInt := by
  have hx := x.isLt
  have hy := y.isLt
  have hnegx := isNegative_iff x
  have hnegy := isNegative_iff y
  unfold signedCompare
  rcases toInt_cases x with ⟨h, heq⟩ | ⟨h, heq⟩ <;>
    rcases toInt_cases y with ⟨h', heq'⟩ | ⟨h', heq'⟩
  · have h1 : x.isNegative = false := by rw [Bool.eq_false_iff, Ne, hnegx]; omega
    have h2 : y.isNegative = false := by rw [Bool.eq_false_iff, Ne, hnegy]; omega
    rw [h1, h2, heq, heq', compare_nat_eq_int]
  · have h1 : x.isNegative = false := by rw [Bool.eq_false_iff, Ne, hnegx]; omega
    rw [h1, hnegy.2 h', heq, heq']
    exact (compare_gt_iff_gt.2 (by omega)).symm
  · have h2 : y.isNegative = false := by rw [Bool.eq_false_iff, Ne, hnegy]; omega
    rw [hnegx.2 h, h2, heq, heq']
    exact (compare_lt_iff_lt.2 (by omega)).symm
  · rw [hnegx.2 h, hnegy.2 h', heq, heq', ← compare_nat_eq_int]
    rcases lt_trichotomy (x.val : Int) y.val with hlt | hlt | hlt
    · rw [compare_lt_iff_lt.2 hlt, compare_lt_iff_lt.2 (by omega)]
    · rw [hlt, compare_eq_iff_eq.2 rfl, compare_eq_iff_eq.2 rfl]
    · rw [compare_gt_iff_gt.2 hlt, compare_gt_iff_gt.2 (by omega)]

theorem signedCompare_of_le {x y : Scalar} (hx : x.val ≤ maxMagnitude)
    (hy : y.val ≤ maxMagnitude) : x.signedCompare y = compare x.val y.val := by
  rw [signedCompare_eq, toInt_of_le hx, toInt_of_le hy, compare_nat_eq_int]

end Scalar

end RsaCircuit
