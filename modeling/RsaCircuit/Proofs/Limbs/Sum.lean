import RsaCircuit.Proofs.Limbs.Arithmetic
set_option autoImplicit false

/-!
# Sums and differences of limbs in range

A column of a sum is at most twice the largest digit, so the carry out of it is at most one and the
sum is exact (`value_add`).  A difference repays what it takes up to the borrow out of the last limb,
which is a multiple of the base to the length of the minuend (`value_sub_modEq`).  Taking an operand
out of a sum therefore leaves the other operand, padded to the length of the sum.
-/

namespace RsaCircuit

namespace Limbs

variable {width : Nat} {a b : Limbs}

/-! ## Sum -/

/-- A column of two digits and a carry does not wrap. -/
theorem two_mul_pow2_le (hwidth : width ≤ 252) : (1 + 1) * pow2 width ≤ fieldOrder := by
  have hmax := pow2_le_maxMagnitude hwidth
  have hp := fieldOrder_eq
  omega

theorem val_add_digits (hwidth : width ≤ 252) {x y : Scalar} (hx : x.val < pow2 width)
    (hy : y.val < pow2 width) : (x + y).val = x.val + y.val := by
  have hfit := two_mul_pow2_le hwidth
  rw [Scalar.val_add, Nat.mod_eq_of_lt (by omega)]

theorem value_map_add (hwidth : width ≤ 252) {pairs : List (Scalar × Scalar)}
    (hpairs : ∀ pair ∈ pairs, pair.1.val < pow2 width ∧ pair.2.val < pow2 width) :
    value width (pairs.map fun (x, y) => x + y) =
      value width (pairs.map Prod.fst) + value width (pairs.map Prod.snd) := by
  induction pairs with
  | nil => rfl
  | cons pair pairs ih =>
    obtain ⟨hx, hy⟩ := hpairs pair List.mem_cons_self
    have hrest := ih fun p hp => hpairs p (List.mem_cons_of_mem pair hp)
    rw [List.map_cons, List.map_cons, List.map_cons, value_cons, value_cons, value_cons, hrest,
      val_add_digits hwidth hx hy, Nat.mul_add]
    omega

theorem columnsFit_map_add (hwidth : width ≤ 252) {pairs : List (Scalar × Scalar)}
    (hpairs : ∀ pair ∈ pairs, pair.1.val < pow2 width ∧ pair.2.val < pow2 width) :
    ColumnsFit width 1 (pairs.map fun (x, y) => x + y) := by
  intro column hcolumn
  obtain ⟨pair, hpair, rfl⟩ := List.mem_map.1 hcolumn
  obtain ⟨hx, hy⟩ := hpairs pair hpair
  rw [val_add_digits hwidth hx hy]
  omega

theorem value_add (hwidth : width ≤ 252) (ha : InRange width a) (hb : InRange width b) :
    value width (add width a b) = value width a + value width b := by
  have hpairs := inRange_align ha hb
  rw [add, value_propagate (Nat.le_succ_of_le hwidth) (two_mul_pow2_le hwidth)
    (columnsFit_map_add hwidth hpairs) (Nat.zero_le 1), value_map_add hwidth hpairs,
    value_map_fst_align, value_map_snd_align, Scalar.val_zero, Nat.zero_add]

theorem inRange_add (hpos : 0 < width) (hwidth : width ≤ 252) (ha : InRange width a)
    (hb : InRange width b) : InRange width (add width a b) := by
  have hcarry : (0 : Scalar).val ≤ 1 := Nat.zero_le 1
  obtain ⟨low, top, heq, _, hlow, htop⟩ := propagate_digits (Nat.le_succ_of_le hwidth)
    (two_mul_pow2_le hwidth) (columnsFit_map_add hwidth (inRange_align ha hb)) hcarry
  have hbase : 2 ≤ pow2 width := pow2_le_pow2 (hpos : 1 ≤ width)
  rw [add, heq]
  refine (inRange_append _ _).2 ⟨hlow, fun x hx => ?_⟩
  rw [List.mem_singleton.1 hx]
  omega

/-! ## Difference -/

theorem value_sub_modEq (hwidth : width ≤ 252) (ha : InRange width a) (hb : InRange width b) :
    value width (sub width a b) + value width b ≡ value width a [MOD pow2 (width * a.length)] :=
  value_subBorrow hwidth ha hb false

theorem value_sub_lt (hwidth : width ≤ 252) (ha : InRange width a) (hb : InRange width b) :
    value width (sub width a b) < pow2 (width * a.length) := by
  have hlt := value_lt width _ (inRange_sub hwidth ha hb)
  rwa [length_sub] at hlt

/-- The difference is the least nonnegative integer that is congruent to the difference of the
values. -/
theorem value_sub_emod (hwidth : width ≤ 252) (ha : InRange width a) (hb : InRange width b) :
    (value width (sub width a b) : Int) =
      ((value width a : Int) - value width b) % pow2 (width * a.length) := by
  have hmod := (Int.natCast_modEq_iff.2 (value_sub_modEq hwidth ha hb)).sub_right (value width b : Int)
  rw [Nat.cast_add, add_sub_cancel_right] at hmod
  rw [← hmod.eq, Int.emod_eq_of_lt (Int.natCast_nonneg _)
    (Int.ofNat_lt.2 (value_sub_lt hwidth ha hb))]

/-- A difference that is negative by no more than the borrow out of the last limb wraps around
once. -/
theorem value_sub_of_lt (hwidth : width ≤ 252) (ha : InRange width a) (hb : InRange width b)
    (hlt : value width a < value width b)
    (hle : value width b ≤ value width a + pow2 (width * a.length)) :
    value width (sub width a b) + value width b = value width a + pow2 (width * a.length) := by
  have hmod := value_sub_emod hwidth ha hb
  rw [← Int.add_emod_right, Int.emod_eq_of_lt (by omega) (by omega)] at hmod
  omega

theorem value_append_zeros (xs : Limbs) (count : Nat) :
    value width (xs ++ List.replicate count 0) = value width xs := by
  rw [value_append, value_replicate_zero, Nat.mul_zero, Nat.add_zero]

/-- Subtraction takes an operand out of a sum again. -/
theorem sub_add_cancel (hpos : 0 < width) (hwidth : width ≤ 252) (ha : InRange width a)
    (hb : InRange width b) :
    sub width (add width a b) b =
      a ++ List.replicate (max a.length b.length + 1 - a.length) 0 := by
  have hsum := inRange_add hpos hwidth ha hb
  refine eq_of_value_eq (inRange_sub hwidth hsum hb)
    ((inRange_append _ _).2 ⟨ha, inRange_replicate_zero _⟩) ?_ ?_
  · rw [length_sub, length_add, List.length_append, List.length_replicate]
    omega
  · have hvalue := value_add hwidth ha hb
    rw [value_sub hwidth hsum hb (by omega), hvalue, Nat.add_sub_cancel, value_append_zeros]

/-- On limbs in range a sum is exact, with a carry limb above the longer operand.  A difference has
the length of the minuend and is exact up to what its last limb borrows, so it undoes a sum. -/
theorem adds_and_subtracts_exactly (width : Nat) (a b : Limbs) (hpos : 1 ≤ width)
    (hwidth : width ≤ 252) (ha : InRange width a) (hb : InRange width b) :
    let sum := add width a b
    let difference := sub width a b
    let borrowed := pow2 (width * a.length)
    (sum.length = max a.length b.length + 1 ∧ InRange width sum ∧
      value width sum = value width a + value width b) ∧
    (difference.length = a.length ∧ InRange width difference ∧
      (value width difference : Int) ≡ value width a - value width b [ZMOD borrowed] ∧
      (value width b ≤ value width a →
        value width difference = value width a - value width b) ∧
      (value width a < value width b → value width b ≤ value width a + borrowed →
        value width difference + value width b = value width a + borrowed)) ∧
    sub width sum b = a ++ List.replicate (max a.length b.length + 1 - a.length) 0 := by
  intro sum difference borrowed
  refine ⟨⟨length_add width a b, inRange_add hpos hwidth ha hb, value_add hwidth ha hb⟩,
    ⟨length_sub width a b, inRange_sub hwidth ha hb, ?_, value_sub hwidth ha hb,
      value_sub_of_lt hwidth ha hb⟩, sub_add_cancel hpos hwidth ha hb⟩
  rw [value_sub_emod hwidth ha hb]
  exact Int.mod_modEq _ _

/-- At the largest width every column carries, and a difference of zero and one borrows from every
limb. -/
theorem adds_and_subtracts_exactly_sample :
    (value 252 (add 252 ([2 ^ 252 - 1, 2 ^ 252 - 1].map Scalar.ofNat) [1]) = 2 ^ 504 ∧
      sub 252 (add 252 ([2 ^ 252 - 1, 2 ^ 252 - 1].map Scalar.ofNat) [1]) [1] =
        [2 ^ 252 - 1, 2 ^ 252 - 1, 0].map Scalar.ofNat) ∧
    value 252 (sub 252 [0, 0] [1]) + 1 = 2 ^ 504 ∧ value 252 (sub 252 [0, 1] [1]) = 2 ^ 252 - 1 := by
  obtain ⟨⟨_, _, hsum⟩, _, hcancel⟩ := adds_and_subtracts_exactly 252
    ([2 ^ 252 - 1, 2 ^ 252 - 1].map Scalar.ofNat) [1] (by decide) (by decide) (by decide +kernel)
    (by decide +kernel)
  obtain ⟨_, ⟨_, _, _, _, hwraps⟩, _⟩ := adds_and_subtracts_exactly 252 [0, 0] [1] (by decide)
    (by decide) (by decide +kernel) (by decide +kernel)
  obtain ⟨_, ⟨_, _, _, hexact, _⟩, _⟩ := adds_and_subtracts_exactly 252 [0, 1] [1] (by decide)
    (by decide) (by decide +kernel) (by decide +kernel)
  refine ⟨⟨hsum.trans (by decide +kernel), hcancel⟩, ?_, ?_⟩
  · exact (hwraps (by decide +kernel) (by decide +kernel)).trans (by decide +kernel)
  · exact (hexact (by decide +kernel)).trans (by decide +kernel)

end Limbs

end RsaCircuit
