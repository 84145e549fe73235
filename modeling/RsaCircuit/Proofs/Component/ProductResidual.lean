import RsaCircuit.Proofs.Component.ModularProduct
set_option autoImplicit false

/-!
# The residual of a product does not wrap

What the carry check of a product tests is interpolated from values in the field.  It is an integer
polynomial nevertheless: factors, quotient and remainder have passed their range checks, so every
coefficient of `left * right - quotient * modulus - remainder` is a sum of few products of limbs and
far below half the field order.  The signed readings of the registers are then these coefficients
themselves, and the layout leaves the carry check two bits more than they need.
-/

namespace RsaCircuit

open Polynomial

namespace Layout

variable {limbBits limbCount : Nat} {layout : Layout}

/-- An admitted layout has the sizes that were asked for. -/
theorem sizes_of_ofSizes? (h : ofSizes? limbBits limbCount = .ok layout) :
    layout.limbBits = limbBits ∧ layout.limbCount = limbCount := by
  unfold ofSizes? at h
  split at h
  · split at h
    · split at h
      · obtain rfl := Except.ok.inj h
        exact ⟨rfl, rfl⟩
      · cases h
    · cases h
  · cases h

end Layout

namespace CarryCheck

/-- The parameters of a product's carry check are admitted. -/
theorem ofSizes?_ofLayout (layout : Layout) :
    ofSizes? layout.limbBits layout.carryBits layout.productLength = .ok (ofLayout layout) :=
  ofSizes?_eq layout.carryBits_add_slack_le layout.two_le_productLength

/-- A carry is range checked with at least one bit, and with no more than the field can tell apart. -/
theorem rangeBits_ofLayout (layout : Layout) :
    1 ≤ (ofLayout layout).rangeBits ∧ (ofLayout layout).rangeBits ≤ maxRangeCheckBits := by
  constructor
  · rw [(sized_ofLayout layout).rangeBits_eq]
    exact Nat.succ_pos _
  · exact (Nat.sub_le _ _).trans layout.carryBits_add_slack_le

end CarryCheck

namespace ModularProduct

open Limbs

/-- A product modulo limbs in range gets as far as its carry check iff its factors are in range and
the modulus is not zero.  The signed registers it then checks are the integer coefficients of the
residual, one for each position, and within the bound of the check.  The layout was admitted because
this bound leaves the carries room in the field, so the parameters of the check are admitted too. -/
theorem residual_exact (limbBits limbCount : Nat) (layout : Layout) (left right modulus : Limbs)
    (context : Context) (hlayout : Layout.ofSizes? limbBits limbCount = .ok layout)
    (hleft : left.length = limbCount) (hright : right.length = limbCount)
    (hmodulus : modulus.length = limbCount) (hrange : InRange limbBits modulus) :
    let product := ofLayout layout
    let input : Input := ⟨left, right, modulus⟩
    let carryBits := 2 * limbBits + bitLength limbCount + 2
    let check := CarryCheck.ofLayout layout
    let preparing := ((product.prepare input).exec context).1
    (carryBits + 3 ≤ 253 ∧
        CarryCheck.ofSizes? limbBits carryBits (2 * limbCount - 1) = .ok check ∧
        1 ≤ check.rangeBits ∧ check.rangeBits ≤ 253) ∧
      (product.component.run input = do
        let prepared ← product.prepare input
        let carryCheck ← check.component.place "t_check"
          (product.residualRegisters input prepared.division)
        return product.witness input prepared carryCheck) ∧
      ((∃ prepared, preparing = .ok prepared) ↔
        InRange limbBits left ∧ InRange limbBits right ∧ value limbBits modulus ≠ 0) ∧
      ∀ prepared, preparing = .ok prepared →
        let registers := product.residualRegisters input prepared.division
        registers.length = 2 * limbCount - 1 ∧
          ofCoefficients (registers.map Scalar.toInt) =
            polynomial left * polynomial right -
              polynomial prepared.division.quotient * polynomial modulus -
              polynomial prepared.division.remainder ∧
          ∀ r ∈ registers, r.toInt.natAbs < 2 ^ carryBits := by
  obtain ⟨rfl, rfl⟩ := Layout.sizes_of_ofSizes? hlayout
  intro product input carryBits check preparing
  have hshape : input.Shaped product.layout := ⟨hleft, hright, hmodulus⟩
  have hprepare := prepare_decides hshape hrange
  refine ⟨⟨layout.carryBits_add_slack_le, CarryCheck.ofSizes?_ofLayout layout,
    CarryCheck.rangeBits_ofLayout layout⟩, ?_, hprepare.exec_ok_iff context, ?_⟩
  · rw [run_eq_multiply hshape, multiply_eq]
    rfl
  · intro prepared hok registers
    obtain ⟨⟨hl, hr, _⟩, hdiv⟩ := hprepare.of_exec_ok hok
    obtain ⟨hcoefficients, hsmall⟩ :=
      residualRegisters_exact (identity_of_divided hshape hl hr hrange hdiv)
    refine ⟨length_residualRegisters product input prepared.division, ?_, fun r hr => ?_⟩
    · rw [hcoefficients, residual, sub_sub, mul_comm (polynomial modulus)]
    · exact (hsmall r hr).trans_le (pow2_le_pow2 (Nat.le_add_right _ 2))

/-- The widest layout with 32 limbs, at factors with the largest limbs and a modulus that cuts off half
of the quotient. -/
theorem residual_exact_sample :
    let product := ofLayout .standard
    let input : Input := ⟨split 121 32 (2 ^ 3872 - 1), split 121 32 (2 ^ 3872 - 1), split 121 32 1⟩
    Layout.ofSizes? 121 32 = .ok .standard ∧ (CarryCheck.ofLayout .standard).rangeBits ≤ 253 ∧
      ∃ prepared, ((product.prepare input).exec (Context.ofRoot "main")).1 = .ok prepared ∧
        (product.residualRegisters input prepared.division).length = 63 ∧
        ∀ r ∈ product.residualRegisters input prepared.division, r.toInt.natAbs < 2 ^ 250 := by
  intro product input
  have hrange : ∀ v, InRange 121 (split 121 32 v) := inRange_split (by decide) 32
  have hlength := fun v => length_split 121 32 v
  have hlayout : Layout.ofSizes? 121 32 = .ok .standard := rfl
  obtain ⟨⟨_, _, _, hbits⟩, _, hreaches, hexact⟩ := residual_exact 121 32 .standard _ _ _
    (Context.ofRoot "main") hlayout (hlength (2 ^ 3872 - 1)) (hlength (2 ^ 3872 - 1)) (hlength 1)
    (hrange 1)
  obtain ⟨prepared, hprepared⟩ := hreaches.2 ⟨hrange _, hrange _, by decide +kernel⟩
  obtain ⟨hcount, _, hsmall⟩ := hexact prepared hprepared
  exact ⟨hlayout, hbits, prepared, hprepared, hcount, hsmall⟩

end ModularProduct

end RsaCircuit
