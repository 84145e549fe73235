import RsaCircuit.Proofs.Component.ModularProduct
set_option autoImplicit false

/-!
# Evaluating, multiplying, interpolating and carrying

The path that a modular product takes to the digits of `a * b` agrees with plain multiplication: its
coefficients are the convolution of the factors, its registers carry to the digits of the product, and
under a layout the digits above the limbs that are divided are zero.
-/

namespace RsaCircuit

namespace ModularProduct

open Limbs

/-- Multiplying through values is convolution for all coefficients, as long as there are as many
points as the product has coefficients.  For limbs in range the coefficients do not wrap while twice
the width of a limb and the length of the shorter factor fit into 252 bits, and normalising them gives
the digits of the product.  A layout leaves room for this, and the limbs that its division does not
read are zero. -/
theorem multiplies_exactly {a b : Limbs} (ha : a ≠ []) (hb : b ≠ [])
    (hsize : a.length + b.length - 1 ≤ fieldOrder) :
    let size := a.length + b.length - 1
    let product := Coefficients.convolve a b
    ((Interpolation.ofSize size).coefficients?
          ((points size).map fun x => Coefficients.eval a x * Coefficients.eval b x) = .ok product ∧
        product.length = size ∧
        ∀ i, product.getD i 0 = ∑ j ∈ Finset.range (i + 1), a.getD j 0 * b.getD (i - j) 0) ∧
      (∀ width, 0 < width → InRange width a → InRange width b →
        let bits := 2 * width + bitLength (min a.length b.length)
        bits ≤ 252 →
        (∀ i, (product.getD i 0).val =
          ∑ j ∈ Finset.range (i + 1), (a.getD j 0).val * (b.getD (i - j) 0).val) ∧
        ∃ digits, Registers.normalize? bits width product = .ok digits ∧ InRange width digits ∧
          value width digits = value width a * value width b) ∧
      ∀ layout : Layout, a.length = layout.limbCount → b.length = layout.limbCount →
        InRange layout.limbBits a → InRange layout.limbBits b →
        let bits := 2 * layout.limbBits + bitLength (min a.length b.length)
        let values := (points layout.productLength).map fun x =>
          Coefficients.eval a x * Coefficients.eval b x
        let digits := (ofLayout layout).normalizedProduct values
        bits ≤ 252 ∧ (ofLayout layout).normalizedProduct? values = .ok digits ∧
          Registers.normalize? bits layout.limbBits product = .ok digits ∧
          (∀ i, 2 * layout.limbCount ≤ i → digits.getD i 0 = 0) ∧
          ∀ modulus : Limbs, modulus.length = layout.limbCount →
            divide? layout.limbBits layout.limbCount (digits.take (2 * layout.limbCount)) modulus =
              divide? layout.limbBits layout.limbCount digits modulus := by
  intro size product
  have hlength : product.length = size := Coefficients.length_convolve ha hb
  refine ⟨⟨?_, hlength, Coefficients.getD_convolve a b⟩, ?_, ?_⟩
  · rw [Interpolation.coefficients?, if_pos (by rw [List.length_map, length_points]; rfl)]
    exact congrArg Except.ok (Coefficients.multiply_eq_convolve ha hb hsize)
  · intro width hpos hrangeA hrangeB bits hfits
    obtain ⟨hrange, hvalue⟩ := normalize_convolve hrangeA hrangeB rfl hfits hpos ha hb
    exact ⟨val_getD_convolve hrangeA hrangeB rfl hfits, _,
      Registers.normalize?_of_pos hpos bits product, hrange, hvalue⟩
  · intro layout hlengthA hlengthB hrangeA hrangeB bits values digits
    have hvalues : values.length = layout.productLength := by
      rw [List.length_map, length_points]
    have hbits : bits = layout.productBits := by
      change 2 * layout.limbBits + bitLength (min a.length b.length) = _
      rw [hlengthA, hlengthB, Nat.min_self, Layout.productBits]
    have hdigits : digits = Registers.normalize bits layout.limbBits product := by
      rw [hbits]
      exact congrArg (Registers.normalize layout.productBits layout.limbBits)
        (coefficients_convolve hlengthA hlengthB rfl)
    have hrange : InRange layout.limbBits digits :=
      (normalizedProduct_eq hrangeA hrangeB hlengthA hlengthB rfl).1
    have hlt : value layout.limbBits digits <
        pow2 (layout.limbBits * (layout.limbCount + layout.limbCount)) :=
      @normalizedProduct_lt (ofLayout layout) a b _ hrangeA hrangeB hlengthA hlengthB rfl
    refine ⟨?_, normalizedProduct?_eq hvalues, ?_, ?_, ?_⟩
    · rw [hbits]
      exact layout.productBits_le.trans (by decide)
    · rw [hdigits]
      exact Registers.normalize?_of_pos layout.limbBits_pos bits product
    · intro i hi
      rw [Nat.two_mul] at hi
      exact getD_eq_zero_of_value_lt hrange
        (hlt.trans_le (pow2_le_pow2 (Nat.mul_le_mul_left _ hi)))
    · intro modulus hmodulus
      rw [← divide?_take _ _ digits, hmodulus, Nat.two_mul]

theorem multiplies_exactly_sample :
    (Interpolation.ofSize 4).coefficients? ((points 4).map fun x =>
        Coefficients.eval [1, -2] x * Coefficients.eval [3, 0, 5] x) = .ok [3, -6, 5, -10] ∧
      (∃ digits, Registers.normalize? 18 8
          (Coefficients.convolve [255, 255, 255] [255, 255]) = .ok digits ∧
        value 8 digits = 16777215 * 65535) ∧
      ((ofLayout .standard).normalizedProduct ((points 63).map fun x =>
        Coefficients.eval (split 121 32 (2 ^ 3872 - 1)) x *
          Coefficients.eval (split 121 32 (2 ^ 3000 + 1)) x)).getD 64 0 = 0 := by
  have hlength := fun v => length_split 121 32 v
  have hne : ∀ v, split 121 32 v ≠ [] := fun _ => List.cons_ne_nil _ _
  have hrange : ∀ v, InRange 121 (split 121 32 v) := inRange_split (by decide) 32
  refine ⟨?_, ?_, ?_⟩
  · obtain ⟨⟨hcoefficients, _⟩, _⟩ := @multiplies_exactly [1, -2] [3, 0, 5] (by decide) (by decide)
      (by decide)
    exact hcoefficients.trans (by decide +kernel)
  · obtain ⟨_, hwidth, _⟩ := @multiplies_exactly [255, 255, 255] [255, 255] (by decide) (by decide)
      (by decide)
    obtain ⟨_, digits, hdigits, _, hvalue⟩ := hwidth 8 (by decide) (by decide) (by decide) (by decide)
    exact ⟨digits, hdigits, hvalue.trans (by decide +kernel)⟩
  · obtain ⟨_, _, hlayout⟩ := @multiplies_exactly (split 121 32 (2 ^ 3872 - 1))
      (split 121 32 (2 ^ 3000 + 1)) (hne _) (hne _) (by rw [hlength, hlength]; decide)
    obtain ⟨_, _, _, hzero, _⟩ := hlayout .standard (hlength _) (hlength _) (hrange _) (hrange _)
    exact hzero 64 (by decide)

end ModularProduct

end RsaCircuit
