import RsaCircuit.Proofs.Limbs.Arithmetic
set_option autoImplicit false

/-!
# The order of limbs

Comparison reads limbs of every size by their sign.  Signed readings lie between `-maxMagnitude` and
`maxMagnitude`, and the field order is `2 * maxMagnitude + 1`, so they are the balanced digits to base
`fieldOrder` of exactly one integer, the `balancedValue` of the limbs.  Comparing limbs is comparing
these integers (`compare_eq_compare_balancedValue`), and that is why it is a total order: leading
zeros do not change the integer, and limbs of one length are determined by it.
-/

namespace RsaCircuit

namespace Limbs

/-! ## Balanced digits -/

/-- The integer whose balanced digits to base `fieldOrder` are the signed readings of the limbs. -/
def balancedValue : Limbs → Int
  | [] => 0
  | x :: xs => x.toInt + fieldOrder * balancedValue xs

@[simp] theorem balancedValue_nil : balancedValue [] = 0 := rfl

@[simp] theorem balancedValue_cons (x : Scalar) (xs : Limbs) :
    balancedValue (x :: xs) = x.toInt + fieldOrder * balancedValue xs := rfl

theorem balancedValue_headD_tail (xs : Limbs) :
    (xs.headD 0).toInt + fieldOrder * balancedValue xs.tail = balancedValue xs := by
  cases xs with
  | nil => rfl
  | cons x xs => rfl

theorem balancedValue_append_zeros (xs : Limbs) (count : Nat) :
    balancedValue (xs ++ List.replicate count 0) = balancedValue xs := by
  induction xs with
  | nil =>
    induction count with
    | zero => rfl
    | succ count ih =>
      rw [List.nil_append] at ih ⊢
      rw [List.replicate_succ, balancedValue_cons, ih, Scalar.toInt_zero, balancedValue_nil, mul_zero,
        add_zero]
  | cons x xs ih => rw [List.cons_append, balancedValue_cons, ih, balancedValue_cons]

/-- Signed readings are less than the field order apart, so the higher digits decide first. -/
theorem compare_balanced_digit (x y : Scalar) (v w : Int) :
    Ord.compare (x.toInt + fieldOrder * v) (y.toInt + fieldOrder * w) =
      (Ord.compare v w).then (x.signedCompare y) := by
  have hx := Scalar.natAbs_toInt_le x
  have hy := Scalar.natAbs_toInt_le y
  have hp := fieldOrder_eq
  rw [Scalar.signedCompare_eq]
  exact compare_signed_digit (by omega) (by omega) v w

/-- Limbs of one length are determined by their balanced value. -/
theorem eq_of_balancedValue_eq {xs ys : Limbs} (hlength : xs.length = ys.length)
    (h : balancedValue xs = balancedValue ys) : xs = ys := by
  induction xs generalizing ys with
  | nil => exact (List.length_eq_zero_iff.1 hlength.symm).symm
  | cons x xs ih =>
    cases ys with
    | nil => cases hlength
    | cons y ys =>
      rw [balancedValue_cons, balancedValue_cons] at h
      have hdigit := compare_balanced_digit x y (balancedValue xs) (balancedValue ys)
      rw [compare_eq_iff_eq.2 h, eq_comm, Ordering.then_eq_eq, compare_eq_iff_eq,
        Scalar.signedCompare_eq, compare_eq_iff_eq] at hdigit
      rw [ih (Nat.succ.inj hlength) hdigit.1, ← Scalar.intCast_toInt x, hdigit.2,
        Scalar.intCast_toInt]

/-! ## Comparison -/

theorem compare_nil_eq (ys : Limbs) : compare [] ys = Ord.compare 0 (balancedValue ys) := by
  induction ys with
  | nil => rfl
  | cons y ys ih =>
    have hdigit := compare_balanced_digit 0 y 0 (balancedValue ys)
    rw [Scalar.toInt_zero, mul_zero, add_zero, ← ih] at hdigit
    rw [balancedValue_cons, hdigit]
    rfl

/-- Limbs compare as the integers whose balanced digits they are, whatever their lengths are. -/
theorem compare_eq_compare_balancedValue (a b : Limbs) :
    compare a b = Ord.compare (balancedValue a) (balancedValue b) := by
  induction a generalizing b with
  | nil => exact compare_nil_eq b
  | cons x xs ih =>
    have hcons : compare (x :: xs) b = (compare xs b.tail).then (x.signedCompare (b.headD 0)) := rfl
    rw [hcons, ih, balancedValue_cons, ← balancedValue_headD_tail b, compare_balanced_digit]

theorem compare_ne_gt_iff (a b : Limbs) :
    compare a b ≠ .gt ↔ balancedValue a ≤ balancedValue b := by
  rw [compare_eq_compare_balancedValue, Ne, compare_gt_iff_gt]
  exact not_lt

/-- Only leading zeros tell apart limbs that compare equal. -/
theorem compare_eq_eq_iff (a b : Limbs) :
    compare a b = .eq ↔ a ++ List.replicate (b.length - a.length) 0 =
      b ++ List.replicate (a.length - b.length) 0 := by
  rw [compare_eq_compare_balancedValue, compare_eq_iff_eq]
  constructor
  · intro h
    refine eq_of_balancedValue_eq ?_ ?_
    · rw [List.length_append, List.length_append, List.length_replicate, List.length_replicate]
      omega
    · rw [balancedValue_append_zeros, balancedValue_append_zeros, h]
  · intro h
    rw [← balancedValue_append_zeros a, h, balancedValue_append_zeros]

/-- Comparison is a total order of limbs up to leading zeros, for limbs of every size and of any
lengths, and on limbs in range it is the order of the integers they stand for. -/
theorem compare_total_order :
    (∀ a b : Limbs, compare b a = (compare a b).swap) ∧
    (∀ a b c : Limbs, compare a b ≠ .gt → compare b c ≠ .gt → compare a c ≠ .gt) ∧
    (∀ a b : Limbs, compare a b = .eq ↔ a ++ List.replicate (b.length - a.length) 0 =
      b ++ List.replicate (a.length - b.length) 0) ∧
    ∀ (width : Nat) (a b : Limbs), width ≤ 252 → InRange width a → InRange width b →
      compare a b = Ord.compare (value width a) (value width b) ∧
        (exceeds a b = true ↔ value width b < value width a) := by
  refine ⟨fun a b => ?_, fun a b c hab hbc => ?_, compare_eq_eq_iff, fun width a b hwidth ha hb => ?_⟩
  · rw [compare_eq_compare_balancedValue, compare_eq_compare_balancedValue, Int.compare_swap]
  · rw [compare_ne_gt_iff] at hab hbc ⊢
    exact hab.trans hbc
  · exact ⟨compare_eq_compare_value hwidth ha hb, exceeds_iff hwidth ha hb⟩

/-- A negative leading limb stands below a missing one. -/
theorem compare_total_order_sample :
    compare [0, 0] [7, 0, -1] = .gt ∧ compare [0, 0, -1] [7, -1] ≠ .gt ∧
      compare [5, 7] [5, 7, 0] = .eq ∧
      compare ([255, 1].map Scalar.ofNat) ([0, 2, 0].map Scalar.ofNat) = Ord.compare 511 512 := by
  obtain ⟨hswap, htrans, hequal, hvalue⟩ := compare_total_order
  refine ⟨(hswap [7, 0, -1] [0, 0]).trans (by decide +kernel),
    htrans [0, 0, -1] [7, 0, -1] [7, -1] (by decide +kernel) (by decide +kernel),
    (hequal [5, 7] [5, 7, 0]).2 (by decide +kernel), ?_⟩
  exact (hvalue 8 _ _ (by decide) (by decide) (by decide)).1.trans (by decide +kernel)

end Limbs

end RsaCircuit
