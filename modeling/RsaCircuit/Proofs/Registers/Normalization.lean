import Mathlib.Algebra.Order.Floor.Div
import RsaCircuit.Proofs.Registers
set_option autoImplicit false

/-!
# Normalising registers of every width

A register may be cut into far more pieces than it has bits.  Of its pieces only the lowest can need
more than half the bits of a scalar, and none is left above the bits of a scalar.  So the pieces on one
position sum up to little more than one limb, whatever the width of a limb and however many pieces there
are, and neither the sums nor the carries wrap.  Normalising therefore gives the digits of the integer
that the registers stand for (`normalize_digits`).
-/

namespace RsaCircuit

namespace Registers

variable {width : Nat}

/-! ## The pieces on one position -/

/-- What a piece at distance `j` from the lowest of its register adds to a position at most. -/
def pieceWeight (width j : Nat) : Nat :=
  (if j < 1 then pow2 width else 0) + if j < 253 then pow2 126 else 0

theorem natAbs_getD_pieces_le_pieceWeight (hpos : 0 < width) (hwidth : width ≤ 252) (count : Nat)
    (register : Scalar) (j : Nat) :
    (((pieces width count register).getD j 0).toInt).natAbs ≤ pieceWeight width j := by
  have hlimb := natAbs_getD_pieces_lt hwidth count register j
  have habove := natAbs_getD_pieces_le hwidth count register j
  have hmagnitude : register.toInt.natAbs < pow2 253 :=
    (Scalar.natAbs_toInt_le register).trans_lt (by decide)
  unfold pieceWeight
  rcases Nat.lt_or_ge j 1 with hlowest | hhigher
  · rw [if_pos hlowest]
    omega
  have hshift : width + j ≤ width * j + 1 := by
    obtain ⟨i, rfl⟩ : ∃ i, j = i + 1 := ⟨j - 1, by omega⟩
    have hmul := Nat.le_mul_of_pos_left i hpos
    rw [Nat.mul_add, Nat.mul_one]
    omega
  rcases Nat.lt_or_ge j 253 with hinside | hbeyond
  · rw [if_pos hinside]
    rcases Nat.lt_or_ge 126 width with hwide | hnarrow
    · have hquotient : register.toInt.natAbs / pow2 (width * j) < pow2 126 := by
        refine Nat.div_lt_of_lt_mul (hmagnitude.trans_le ?_)
        rw [← pow2_add]
        exact pow2_le_pow2 (by omega)
      omega
    · have hlimbs : pow2 width ≤ pow2 126 := pow2_le_pow2 hnarrow
      omega
  · have hquotient : register.toInt.natAbs / pow2 (width * j) = 0 :=
      Nat.div_eq_of_lt (hmagnitude.trans_le (pow2_le_pow2 (by omega)))
    omega

theorem sum_weight_le (count piece i : Nat) :
    ∑ j ∈ Finset.range i, (if j < count then piece else 0) ≤ count * piece := by
  have hcard : ((Finset.range i).filter (· < count)).card ≤ count := by
    have hsubset : (Finset.range i).filter (· < count) ⊆ Finset.range count := by
      intro j hj
      exact Finset.mem_range.2 (Finset.mem_filter.1 hj).2
    exact (Finset.card_le_card hsubset).trans_eq (Finset.card_range count)
  rw [← Finset.sum_filter, Finset.sum_const, smul_eq_mul]
  exact Nat.mul_le_mul_right piece hcard

/-- What all pieces above the lowest add to a position at most. -/
def higherPieces : Nat := 253 * pow2 126

theorem sum_pieceWeight_le (width i : Nat) :
    ∑ j ∈ Finset.range i, pieceWeight width j ≤ pow2 width + higherPieces := by
  have hlowest := sum_weight_le 1 (pow2 width) i
  rw [Nat.one_mul] at hlowest
  unfold pieceWeight
  rw [Finset.sum_add_distrib]
  exact Nat.add_le_add hlowest (sum_weight_le 253 (pow2 126) i)

theorem settleBounds (hpos : 0 < width) (hwidth : width ≤ 252) :
    SettleBounds width (pow2 width + higherPieces) (higherPieces + 2) := by
  have hlimb : pow2 width ≤ pow2 252 := pow2_le_pow2 hwidth
  have htwo : 2 ≤ pow2 width := pow2_le_pow2 (hpos : 1 ≤ width)
  have hfits : pow2 252 + higherPieces + (higherPieces + 2) ≤ maxMagnitude := by decide
  refine ⟨by omega, ?_⟩
  have hmul := Nat.mul_le_mul_left higherPieces htwo
  rw [Nat.add_mul]
  omega

/-! ## Normalising -/

/-- Registers without bits are zeros. -/
theorem eq_replicate_of_natAbs_lt_one {registers : Registers}
    (h : ∀ r ∈ registers, r.toInt.natAbs < 1) : registers = List.replicate registers.length 0 := by
  refine List.eq_replicate_of_mem fun r hr => ?_
  have hr := h r hr
  exact (Scalar.toInt_eq_zero_iff r).1 (by omega)

/-- Normalising gives as many limbs as there are registers and pieces, all of them digits, and keeps the
integer up to the carry out of the last limb. -/
theorem normalize_digits (hpos : 0 < width) (hwidth : width ≤ 252) {bits : Nat}
    {registers : Registers}
    (hregisters : ∀ r ∈ registers, r.toInt.natAbs < pow2 (width * piecesFor bits width)) :
    (normalize bits width registers).length = registers.length + piecesFor bits width ∧
      Limbs.InRange width (normalize bits width registers) ∧
      (Limbs.value width (normalize bits width registers) : Int) ≡ total width registers
        [ZMOD pow2 (width * (registers.length + piecesFor bits width))] := by
  by_cases hbits : bits = 0
  · have hpieces : piecesFor bits width = 0 := by
      rw [hbits]
      exact Nat.div_eq_of_lt (by omega)
    rw [hpieces, Nat.mul_zero, pow2_zero] at hregisters
    have hzeros := eq_replicate_of_natAbs_lt_one hregisters
    have hrange : Limbs.InRange width registers :=
      hzeros ▸ Limbs.inRange_replicate_zero registers.length
    rw [hpieces, Nat.add_zero, normalize, if_pos hbits, total_of_inRange hwidth hrange]
    exact ⟨rfl, hrange, Int.ModEq.refl _⟩
  · have hpieces : PiecesBounded (pieceWeight width)
        (registers.map (pieces width (piecesFor bits width))) := by
      intro row hrow j
      obtain ⟨r, _, rfl⟩ := List.mem_map.1 hrow
      exact natAbs_getD_pieces_le_pieceWeight hpos hwidth _ r j
    exact ⟨length_normalize hbits registers, normalize_eq hwidth hbits (settleBounds hpos hwidth)
      (sum_pieceWeight_le width) hregisters hpieces⟩

/-- Registers whose pieces hold them normalise to as many limbs as there are registers and pieces, each
a digit.  Their value is the integer that the registers stand for, reduced to the width of the limbs,
and that integer itself if it is not negative and the limbs hold it. -/
theorem normalizes_exactly (width bits : Nat) (registers : Registers) (hpos : 1 ≤ width)
    (hwidth : width ≤ 252)
    (hregisters : ∀ r ∈ registers, r.toInt.natAbs < 2 ^ (width * (bits ⌈/⌉ width))) :
    let length := registers.length + bits ⌈/⌉ width
    ∃ limbs, normalize? bits width registers = .ok limbs ∧ limbs.length = length ∧
      (∀ limb ∈ limbs, limb.val < 2 ^ width) ∧
      (Limbs.value width limbs : Int) = total width registers % (2 ^ (width * length) : Nat) ∧
      (0 ≤ total width registers → total width registers < (2 ^ (width * length) : Nat) →
        (Limbs.value width limbs : Int) = total width registers) := by
  intro length
  obtain ⟨hlength, hrange, hmod⟩ :=
    @normalize_digits width hpos hwidth bits registers hregisters
  have hvalue := Limbs.value_lt width _ hrange
  rw [hlength] at hvalue
  have hreduced : (Limbs.value width (normalize bits width registers) : Int) =
      total width registers % (2 ^ (width * length) : Nat) := by
    rw [← Int.emod_eq_of_lt (Int.natCast_nonneg _) (Int.ofNat_lt.2 hvalue)]
    exact hmod
  refine ⟨_, normalize?_of_pos hpos bits registers, hlength, hrange, hreduced, ?_⟩
  intro hnonneg hlt
  rw [hreduced, Int.emod_eq_of_lt hnonneg hlt]

theorem normalizes_exactly_sample :
    (∃ limbs, normalize? 9 8 ([5, -1, 1].map Scalar.ofInt) = .ok limbs ∧ limbs.length = 5 ∧
      Limbs.value 8 limbs = 65536 - 256 + 5) ∧
    ∃ limbs, normalize? 253 252 [Scalar.ofInt (-1)] = .ok limbs ∧ limbs.length = 3 ∧
      (Limbs.value 252 limbs : Int) = 2 ^ 756 - 1 := by
  constructor
  · obtain ⟨limbs, hlimbs, hlength, _, _, hexact⟩ := normalizes_exactly 8 9
      ([5, -1, 1].map Scalar.ofInt) (by decide) (by decide) (by decide)
    have hvalue := hexact (by decide) (by decide)
    have htotal : total 8 ([5, -1, 1].map Scalar.ofInt) = 65285 := by decide
    refine ⟨limbs, hlimbs, hlength, ?_⟩
    rw [htotal] at hvalue
    omega
  · obtain ⟨limbs, hlimbs, hlength, _, hvalue, _⟩ := normalizes_exactly 252 253
      [Scalar.ofInt (-1)] (by decide) (by decide) (by decide +kernel)
    exact ⟨limbs, hlimbs, hlength, hvalue.trans (by decide +kernel)⟩

end Registers

end RsaCircuit
