import Mathlib
import RsaCircuit.Proofs.Scalar.Signed
set_option autoImplicit false

/-!
# The signed reading as an isomorphism

Integers are congruent modulo the field order iff they are the same scalar, and the signed reading is
the one of them that is at most `maxMagnitude` away from zero (`eq_toInt_ofInt_iff`).  So scalars and
the integers of that range are in bijection, the signed comparison and the sign are those of the
integers, and the text of a scalar is the decimal notation of its integer, from which it can be read
back (`toInt?_text`).
-/

namespace RsaCircuit

namespace Scalar

/-! ## Residue classes -/

theorem intCast_eq_iff_modEq (z w : Int) : (z : Scalar) = w ↔ z ≡ w [ZMOD fieldOrder] := by
  rw [← sub_eq_zero, ← Int.cast_sub, intCast_eq_zero_iff, Int.modEq_comm, Int.modEq_iff_dvd]

/-- Each residue class has one integer in the range of signed readings, the reading of its scalar. -/
theorem eq_toInt_ofInt_iff (z w : Int) :
    w = (ofInt z).toInt ↔
      -(maxMagnitude : Int) ≤ w ∧ w ≤ maxMagnitude ∧ w ≡ z [ZMOD fieldOrder] := by
  constructor
  · rintro rfl
    have hbound := natAbs_toInt_le (ofInt z)
    exact ⟨by omega, by omega, (intCast_eq_iff_modEq _ z).1 (intCast_toInt (ofInt z))⟩
  · rintro ⟨hlow, hhigh, hmod⟩
    exact (toInt_eq_of_cast (by omega) ((intCast_eq_iff_modEq w z).2 hmod)).symm

theorem toInt_injective : Function.Injective toInt := Function.LeftInverse.injective intCast_toInt

/-! ## Text -/

theorem text_eq_repr (x : Scalar) : x.text = x.toInt.repr := by
  unfold text toInt
  split
  · next hneg =>
    -- The text of an integer has a sign only if there is something to negate.
    have hpos : 0 < (-x).val := by
      have hlt := (isNegative_iff_toInt x).1 hneg
      rw [toInt, if_pos hneg] at hlt
      omega
    obtain ⟨m, hm⟩ := Nat.exists_eq_add_one.2 hpos
    rw [hm]
    rfl
  · rfl

theorem toInt?_text (x : Scalar) : x.text.toInt? = some x.toInt := by
  rw [text_eq_repr, Int.toInt?_repr]

theorem text_injective : Function.Injective text := by
  intro x y h
  have hread := congrArg String.toInt? h
  rw [toInt?_text, toInt?_text] at hread
  exact toInt_injective (Option.some.inj hread)

/-- The signed reading takes the scalars one to one onto the integers from `-maxMagnitude` to
`maxMagnitude`.  Sign, comparison and text of scalars are those of the integers. -/
theorem signed_order_isomorphism :
    (∀ x : Scalar, (-(maxMagnitude : Int) ≤ x.toInt ∧ x.toInt ≤ maxMagnitude) ∧
      ofInt x.toInt = x) ∧
    (∀ z w : Int, w = (ofInt z).toInt ↔
      -(maxMagnitude : Int) ≤ w ∧ w ≤ maxMagnitude ∧ w ≡ z [ZMOD fieldOrder]) ∧
    (∀ x y : Scalar, x.signedCompare y = compare x.toInt y.toInt) ∧
    (∀ x : Scalar, x.isNegative = true ↔ x.toInt < 0) ∧
    (∀ x : Scalar, x.text = toString x.toInt ∧ x.text.toInt? = some x.toInt) ∧
    ∀ x y : Scalar, x.text = y.text ↔ x = y := by
  refine ⟨fun x => ⟨?_, intCast_toInt x⟩, eq_toInt_ofInt_iff, signedCompare_eq,
    isNegative_iff_toInt, fun x => ⟨text_eq_repr x, toInt?_text x⟩, fun x y => text_injective.eq_iff⟩
  have hbound := natAbs_toInt_le x
  omega

/-- The readings jump from the largest to the least integer in the middle of the field. -/
example : (ofNat maxMagnitude).toInt = maxMagnitude ∧
    (ofNat (maxMagnitude + 1)).toInt = -maxMagnitude ∧
    (ofNat maxMagnitude).signedCompare (ofNat (maxMagnitude + 1)) = .gt := by decide +kernel

end Scalar

end RsaCircuit
