import RsaCircuit.Component.ModularProduct
import RsaCircuit.Proofs.Component.CarryCheck
import RsaCircuit.Proofs.Limbs.Guarded
import RsaCircuit.Proofs.Polynomial.Multiplication
set_option autoImplicit false

/-!
# The modular product is exact

For factors in range the product comes back from its values without a wrap, because a layout bounds
the coefficients of every polynomial in the circuit (`Layout.coefficients_fit`).  Division is exact,
so the residual stands for `product - modulus * quotient - remainder` with the quotient cut to the
limbs of the layout, and that is zero iff nothing was cut off.
-/

namespace RsaCircuit

open Polynomial

namespace Layout

theorem productBits_le (layout : Layout) : layout.productBits ≤ 248 := by
  have hfit := layout.carries_fit
  simp only [residualBits, carrySlack, maxRangeCheckBits] at hfit
  unfold productBits
  omega

theorem pow2_productBits_le (layout : Layout) : pow2 layout.productBits ≤ maxMagnitude :=
  pow2_le_maxMagnitude (layout.productBits_le.trans (by decide))

theorem limbBits_le_253 (layout : Layout) : layout.limbBits ≤ 253 :=
  layout.limbBits_le.trans (by decide)

/-- A position of a product and one more limb fit into the registers of a product. -/
theorem coefficients_fit (layout : Layout) :
    layout.limbCount * (pow2 layout.limbBits * pow2 layout.limbBits) + pow2 layout.limbBits ≤
      pow2 layout.productBits := by
  have hcount : layout.limbCount + 1 ≤ pow2 (bitLength layout.limbCount) :=
    lt_pow2_bitLength layout.limbCount
  have hone := one_le_pow2 layout.limbBits
  calc layout.limbCount * (pow2 layout.limbBits * pow2 layout.limbBits) + pow2 layout.limbBits
      ≤ layout.limbCount * (pow2 layout.limbBits * pow2 layout.limbBits) +
          pow2 layout.limbBits * pow2 layout.limbBits :=
        Nat.add_le_add_left (Nat.le_mul_of_pos_left _ hone) _
    _ = (layout.limbCount + 1) * (pow2 layout.limbBits * pow2 layout.limbBits) := by ring
    _ ≤ pow2 (bitLength layout.limbCount) * (pow2 layout.limbBits * pow2 layout.limbBits) :=
        Nat.mul_le_mul_right _ hcount
    _ = pow2 layout.productBits := by
        rw [productBits, pow2_add, Nat.two_mul, pow2_add, Nat.mul_comm]

theorem productLength_le_fieldOrder (layout : Layout) : layout.productLength ≤ fieldOrder := by
  have hcount := lt_pow2_bitLength layout.limbCount
  have hbits := layout.productBits_le
  have hpow : pow2 (bitLength layout.limbCount) ≤ pow2 248 := by
    unfold productBits at hbits
    exact pow2_le_pow2 (by omega)
  have hfield : 2 * pow2 248 ≤ fieldOrder := by decide
  unfold productLength
  omega

end Layout

/-- The carry check of a product is meant for its layout. -/
theorem CarryCheck.sized_ofLayout (layout : Layout) : (CarryCheck.ofLayout layout).Sized := by
  refine ⟨layout.limbBits_pos, ?_⟩
  change layout.limbBits ≤ layout.productBits + 2 + 2
  unfold Layout.productBits
  omega

namespace ModularProduct

open Limbs

/-! ## Stages -/

/-- What a product has computed before its carry check. -/
structure Prepared where
  leftRange : List BitSplit.Witness
  rightRange : List BitSplit.Witness
  division : Division
  quotientRange : List BitSplit.Witness
  remainderRange : List BitSplit.Witness

/-- The limbs of the product of the factors, where there is one value per point. -/
def normalizedProduct (product : ModularProduct) (values : List Scalar) : Limbs :=
  Registers.normalize product.layout.productBits product.layout.limbBits
    (product.interpolation.coefficients values)

/-- The values of the product of the factors. -/
def productValues (product : ModularProduct) (input : Input) : List Scalar :=
  (points product.layout.productLength).map fun x =>
    Coefficients.eval input.left x * Coefficients.eval input.right x

/-- The values of the product of quotient and modulus plus the remainder. -/
def divisionValues (product : ModularProduct) (input : Input) (division : Division) : List Scalar :=
  (points product.layout.productLength).map fun x =>
    Coefficients.eval input.modulus x * Coefficients.eval division.quotient x +
      Coefficients.eval division.remainder x

/-- The registers of the carry check, interpolated from the differences of both. -/
def residualRegisters (product : ModularProduct) (input : Input) (division : Division) : Registers :=
  product.interpolation.coefficients
    (List.zipWith (· - ·) (product.productValues input) (product.divisionValues input division))

/-- Everything a product does before its carry check. -/
def prepare (product : ModularProduct) (input : Input) : Run Prepared := do
  let rangeCheck := BitSplit.component product.layout.limbBits
  let leftRange ← rangeCheck.placeEach "range_a" input.left
  let rightRange ← rangeCheck.placeEach "range_b" input.right
  let division ← product.divide (product.productValues input) input.modulus
  let quotientRange ← rangeCheck.placeEach "range_q" division.quotient
  let remainderRange ← rangeCheck.placeEach "range_r" division.remainder
  return { leftRange, rightRange, division, quotientRange, remainderRange }

/-- The signals of a product whose carry check has passed. -/
def witness (product : ModularProduct) (input : Input) (prepared : Prepared)
    (carryCheck : CarryCheck.Witness) : Witness where
  out := prepared.division.remainder
  left := input.left
  right := input.right
  modulus := input.modulus
  productValues := product.productValues input
  quotient := prepared.division.quotient
  remainder := prepared.division.remainder
  divisionValues := product.divisionValues input prepared.division
  residualValues := List.zipWith (· - ·) (product.productValues input)
    (product.divisionValues input prepared.division)
  leftRange := prepared.leftRange
  rightRange := prepared.rightRange
  quotientRange := prepared.quotientRange
  remainderRange := prepared.remainderRange
  carryCheck := carryCheck

variable {product : ModularProduct} {left right modulus : Limbs} {values : List Scalar}

/-! ## Guards -/

theorem coefficients?_eq (h : values.length = product.layout.productLength) :
    product.interpolation.coefficients? values = .ok (product.interpolation.coefficients values) := by
  rw [product.interpolation_eq]
  exact Interpolation.coefficients?_of_length h

theorem normalizedProduct?_eq (h : values.length = product.layout.productLength) :
    product.normalizedProduct? values = .ok (product.normalizedProduct values) := by
  rw [normalizedProduct?, bind_of_ok (coefficients?_eq h)]
  exact Registers.normalize?_of_pos product.layout.limbBits_pos _ _

theorem differences?_of_length {xs ys : List Scalar} (h : xs.length = ys.length) :
    differences? xs ys = .ok (List.zipWith (· - ·) xs ys) := by
  rw [differences?, bind_of_ok (zip?_of_length h)]
  exact congrArg Except.ok List.map_zipWith

@[simp] theorem length_productValues (product : ModularProduct) (input : Input) :
    (product.productValues input).length = product.layout.productLength := by
  rw [productValues, List.length_map, length_points]

@[simp] theorem length_divisionValues (product : ModularProduct) (input : Input)
    (division : Division) :
    (product.divisionValues input division).length = product.layout.productLength := by
  rw [divisionValues, List.length_map, length_points]

theorem length_residualValues (product : ModularProduct) (input : Input) (division : Division) :
    (List.zipWith (· - ·) (product.productValues input)
      (product.divisionValues input division)).length = product.layout.productLength := by
  rw [List.length_zipWith, length_productValues, length_divisionValues, Nat.min_self]

/-- On one value per point no guard of a division refuses anything: the divisor of a division decides
how long the quotient is, and it is never shorter than what is kept of it. -/
theorem divide_eq (h : values.length = product.layout.productLength) (modulus : Limbs) :
    product.divide values modulus = do
      Run.each Run.report (Event.ofDivisor modulus)
      let division ← Run.ofArithmetic (divide? product.layout.limbBits product.layout.limbCount
        (product.normalizedProduct values) modulus)
      if (division.quotient.drop product.layout.limbCount).any (· ≠ 0) then
        Run.report (.quotientTooLong product.layout.limbCount)
      return { division with quotient := division.quotient.take product.layout.limbCount } := by
  rw [divide, Run.ofDomain_bind (normalizedProduct?_eq h), Guarded.divide?_eq]
  refine bind_congr fun _ => ?_
  cases hdivision : divide? product.layout.limbBits product.layout.limbCount
      (product.normalizedProduct values) modulus with
  | error stop => cases stop <;> rfl
  | ok division =>
    have hkept := Nat.le_of_lt (lt_length_quotient hdivision)
    exact Run.ofDomain_bind (slice?_drop hkept) _

/-- A product prepares its residual and hands it to the carry check. -/
theorem multiply_eq (product : ModularProduct) (input : Input) :
    product.multiply input = do
      let prepared ← product.prepare input
      let carryCheck ← (CarryCheck.ofLayout product.layout).component.place "t_check"
        (product.residualRegisters input prepared.division)
      return product.witness input prepared carryCheck := by
  simp only [multiply, prepare, bind_assoc, pure_bind]
  refine bind_congr fun leftRange => bind_congr fun rightRange => bind_congr fun division =>
    bind_congr fun quotientRange => bind_congr fun remainderRange => ?_
  have hlengths : (product.productValues input).length =
      (product.divisionValues input division).length := by
    rw [length_productValues, length_divisionValues]
  refine (Run.ofDomain_bind (differences?_of_length hlengths) _).trans ?_
  exact Run.ofDomain_bind (coefficients?_eq (length_residualValues product input division)) _

/-! ## The product of the factors -/

theorem ne_nil_of_length {layout : Layout} {xs : Limbs} (h : xs.length = layout.limbCount) :
    xs ≠ [] := by
  have htwo := layout.two_le_limbCount
  apply List.ne_nil_of_length_pos
  omega

theorem natDegree_mul_lt (layout : Layout) {a b : Limbs} (ha : a.length = layout.limbCount)
    (hb : b.length = layout.limbCount) :
    (polynomial a * polynomial b).natDegree < layout.productLength := by
  have hmul := natDegree_mul_le (p := polynomial a) (q := polynomial b)
  have hdega := natDegree_polynomial_le a
  have hdegb := natDegree_polynomial_le b
  have htwo := layout.two_le_limbCount
  unfold Layout.productLength
  omega

theorem coeff_mul_lt (layout : Layout) {a b : Limbs} (ha : InRange layout.limbBits a)
    (hb : InRange layout.limbBits b) (hlength : a.length = layout.limbCount) (i : Nat) :
    0 ≤ (polynomial a * polynomial b).coeff i ∧
      (polynomial a * polynomial b).coeff i + pow2 layout.limbBits ≤ pow2 layout.productBits := by
  have hbounds := coeff_mul_bounds ha hb i
  have hfit := layout.coefficients_fit
  rw [hlength, ← Nat.cast_mul] at hbounds
  omega

theorem length_coefficients (h : values.length = product.layout.productLength) :
    (product.interpolation.coefficients values).length = product.layout.productLength := by
  rw [product.interpolation_eq]
  exact Interpolation.length_coefficients h

theorem length_residualRegisters (product : ModularProduct) (input : Input) (division : Division) :
    (product.residualRegisters input division).length = product.layout.productLength :=
  length_coefficients (length_residualValues product input division)

/-- An integer polynomial comes back from the values of its image as the coefficients of the image. -/
theorem ofCoefficients_of_values {p : ℤ[X]} (hdegree : p.natDegree < product.layout.productLength)
    (hvalues : values = (points product.layout.productLength).map fun x =>
      (p.map (Int.castRingHom Scalar)).eval x) :
    ofCoefficients (product.interpolation.coefficients values) =
      p.map (Int.castRingHom Scalar) := by
  rw [product.interpolation_eq]
  exact Registers.coefficients_of_values product.layout.productLength_le_fieldOrder hdegree hvalues

/-- The factors are interpolated to their convolution. -/
theorem coefficients_convolve (hlengthLeft : left.length = product.layout.limbCount)
    (hlengthRight : right.length = product.layout.limbCount)
    (hvalues : values = (points product.layout.productLength).map fun x =>
      Coefficients.eval left x * Coefficients.eval right x) :
    product.interpolation.coefficients values = Coefficients.convolve left right := by
  have hsize : product.layout.productLength = left.length + right.length - 1 := by
    rw [hlengthLeft, hlengthRight, Layout.productLength, Nat.two_mul]
  have hfield := product.layout.productLength_le_fieldOrder
  rw [hsize] at hvalues hfield
  rw [product.interpolation_eq, hvalues, hsize]
  exact Coefficients.multiply_eq_convolve (ne_nil_of_length hlengthLeft)
    (ne_nil_of_length hlengthRight) hfield

/-- The limbs that are divided stand for the product of the factors. -/
theorem normalizedProduct_eq (hleft : InRange product.layout.limbBits left)
    (hright : InRange product.layout.limbBits right)
    (hlengthLeft : left.length = product.layout.limbCount)
    (hlengthRight : right.length = product.layout.limbCount)
    (hvalues : values = (points product.layout.productLength).map fun x =>
      Coefficients.eval left x * Coefficients.eval right x) :
    InRange product.layout.limbBits (product.normalizedProduct values) ∧
      value product.layout.limbBits (product.normalizedProduct values) =
        value product.layout.limbBits left * value product.layout.limbBits right := by
  have hbits : product.layout.productBits =
      2 * product.layout.limbBits + bitLength (min left.length right.length) := by
    rw [hlengthLeft, hlengthRight, Nat.min_self, Layout.productBits]
  rw [normalizedProduct, coefficients_convolve hlengthLeft hlengthRight hvalues]
  exact normalize_convolve hleft hright hbits (product.layout.productBits_le.trans (by decide))
    product.layout.limbBits_pos (ne_nil_of_length hlengthLeft) (ne_nil_of_length hlengthRight)

/-- The product reaches into no limb that division does not read. -/
theorem normalizedProduct_lt (hleft : InRange product.layout.limbBits left)
    (hright : InRange product.layout.limbBits right)
    (hlengthLeft : left.length = product.layout.limbCount)
    (hlengthRight : right.length = product.layout.limbCount)
    (hvalues : values = (points product.layout.productLength).map fun x =>
      Coefficients.eval left x * Coefficients.eval right x) :
    value product.layout.limbBits (product.normalizedProduct values) <
      pow2 (product.layout.limbBits * (product.layout.limbCount + product.layout.limbCount)) := by
  have hlt := Nat.mul_lt_mul'' (value_lt _ _ hleft) (value_lt _ _ hright)
  rw [hlengthLeft, hlengthRight, ← pow2_add, ← Nat.mul_add] at hlt
  rwa [(normalizedProduct_eq hleft hright hlengthLeft hlengthRight hvalues).2]

/-! ## Division -/

/-- Quotient and remainder by a modulus, the quotient cut to the limbs of the layout. -/
structure Divided (layout : Layout) (product modulus : Nat) (division : Division) : Prop where
  inRange_quotient : InRange layout.limbBits division.quotient
  length_quotient : division.quotient.length = layout.limbCount
  value_quotient : value layout.limbBits division.quotient =
    product / modulus % pow2 layout.totalBits
  inRange_remainder : InRange layout.limbBits division.remainder
  length_remainder : division.remainder.length = layout.limbCount
  value_remainder : value layout.limbBits division.remainder = product % modulus

theorem divided_of_exact {layout : Layout} {r d : Nat} {extra : Nat} {result : Division}
    (h : result.Exact layout.limbBits (layout.limbCount + extra) layout.limbCount r d) :
    Divided layout r d { result with quotient := result.quotient.take layout.limbCount } where
  inRange_quotient := h.inRange_quotient.take _
  length_quotient := by
    rw [List.length_take, h.length_quotient]
    exact Nat.min_eq_left (Nat.le_add_right _ _)
  value_quotient := by
    rw [value_take h.inRange_quotient, h.value_quotient]
    rfl
  inRange_remainder := h.inRange_remainder
  length_remainder := h.length_remainder
  value_remainder := h.value_remainder

/-- Division fails for the modulus zero only. -/
theorem divide_decides (hvalues : values.length = product.layout.productLength)
    (hmodulus : InRange product.layout.limbBits modulus)
    (hlength : modulus.length = product.layout.limbCount)
    (hproduct : InRange product.layout.limbBits (product.normalizedProduct values))
    (hlt : value product.layout.limbBits (product.normalizedProduct values) <
      pow2 (product.layout.limbBits * (product.layout.limbCount + product.layout.limbCount))) :
    (product.divide values modulus).Decides (value product.layout.limbBits modulus ≠ 0)
      (Divided product.layout (value product.layout.limbBits (product.normalizedProduct values))
        (value product.layout.limbBits modulus)) := by
  have hwidth : product.layout.limbBits ≤ 126 := product.layout.limbBits_le.trans (by decide)
  have hdivision : (Run.ofArithmetic (divide? product.layout.limbBits product.layout.limbCount
      (product.normalizedProduct values) modulus)).Decides
      (value product.layout.limbBits modulus ≠ 0) fun result =>
        result.Exact product.layout.limbBits
          (product.layout.limbCount + (1 + leadingZeros modulus)) product.layout.limbCount
          (value product.layout.limbBits (product.normalizedProduct values))
          (value product.layout.limbBits modulus) := by
    constructor
    · intro hne
      obtain ⟨result, hdivide, hexact⟩ := divide?_eq product.layout.limbBits_pos hwidth hproduct
        hmodulus hne product.layout.limbCount
      rw [hlength, Nat.mod_eq_of_lt hlt, Nat.add_assoc] at hexact
      rw [hdivide]
      exact ⟨result, rfl, hexact⟩
    · intro hzero
      rw [divide?_of_value_eq_zero (not_not.1 hzero)]
      exact ⟨_, rfl⟩
  rw [divide_eq hvalues]
  apply (Run.Decides.reports _).bind_total
  intro _ _
  apply hdivision.bind_done
  intro _ result hexact
  split
  · have hreport : (Run.report (.quotientTooLong product.layout.limbCount)).Decides True
        fun _ => True := ⟨fun _ => ⟨(), rfl, trivial⟩, fun h => absurd trivial h⟩
    exact hreport.bind_total fun _ _ => Run.Decides.done (divided_of_exact hexact)
  · exact Run.Decides.done (divided_of_exact hexact)

/-! ## The residual -/

/-- The integers of a division identity: both factors, the modulus, quotient and remainder. -/
structure Identity (layout : Layout) (input : Input) (division : Division) : Prop where
  left : InRange layout.limbBits input.left ∧ input.left.length = layout.limbCount
  right : InRange layout.limbBits input.right ∧ input.right.length = layout.limbCount
  modulus : InRange layout.limbBits input.modulus ∧ input.modulus.length = layout.limbCount
  quotient : InRange layout.limbBits division.quotient ∧
    division.quotient.length = layout.limbCount
  remainder : InRange layout.limbBits division.remainder ∧
    division.remainder.length = layout.limbCount

/-- Both sides of a division identity as polynomials, the right one taken from the left one. -/
noncomputable def residual (input : Input) (division : Division) : ℤ[X] :=
  polynomial input.left * polynomial input.right -
    (polynomial input.modulus * polynomial division.quotient + polynomial division.remainder)

section Residual

variable {input : Input} {division : Division}

theorem natDegree_residual_lt {layout : Layout} (h : Identity layout input division) :
    (residual input division).natDegree < layout.productLength := by
  have htwo := layout.two_le_limbCount
  have hproduct := natDegree_mul_lt layout h.left.2 h.right.2
  have hmultiple := natDegree_mul_lt layout h.modulus.2 h.quotient.2
  have hremainder := natDegree_polynomial_le division.remainder
  have hlength := h.remainder.2
  have hdivision : (polynomial input.modulus * polynomial division.quotient +
      polynomial division.remainder).natDegree ≤ layout.productLength - 1 := by
    refine natDegree_add_le_of_degree_le (by omega) ?_
    unfold Layout.productLength
    omega
  have hle := natDegree_sub_le_of_le (m := layout.productLength - 1)
    (Nat.le_sub_one_of_lt hproduct) hdivision
  rw [max_self] at hle
  exact hle.trans_lt (by omega)

theorem natAbs_coeff_residual_lt {layout : Layout} (h : Identity layout input division) (i : Nat) :
    ((residual input division).coeff i).natAbs < pow2 layout.productBits := by
  have hproduct := coeff_mul_lt layout h.left.1 h.right.1 h.left.2 i
  have hmultiple := coeff_mul_lt layout h.modulus.1 h.quotient.1 h.modulus.2 i
  have hremainder := h.remainder.1.getD i
  have hpos := pow2_pos layout.limbBits
  rw [residual, coeff_sub, coeff_add, coeff_polynomial]
  omega

theorem eval_residual (width : Nat) :
    (residual input division).eval (pow2 width : ℤ) =
      value width input.left * value width input.right -
        (value width input.modulus * value width division.quotient +
          value width division.remainder) := by
  rw [residual, eval_sub, eval_add, eval_mul, eval_mul, eval_polynomial, eval_polynomial,
    eval_polynomial, eval_polynomial, eval_polynomial]

/-- The registers of the carry check are the image of the residual over the integers. -/
theorem ofCoefficients_residualRegisters (h : Identity product.layout input division) :
    ofCoefficients (product.residualRegisters input division) =
      (residual input division).map (Int.castRingHom Scalar) := by
  refine ofCoefficients_of_values (natDegree_residual_lt h) ?_
  rw [productValues, divisionValues, List.zipWith_map, List.zipWith_self]
  apply List.map_congr_left
  intro x _
  rw [residual, Polynomial.map_sub, Polynomial.map_add, Polynomial.map_mul, Polynomial.map_mul,
    eval_sub, eval_add, eval_mul, eval_mul]
  simp only [map_polynomial, Coefficients.ofCoefficients_eval]

/-- The registers of the carry check, read as signed integers, are the coefficients of the residual:
none of them wraps. -/
theorem residualRegisters_exact (h : Identity product.layout input division) :
    ofCoefficients ((product.residualRegisters input division).map Scalar.toInt) =
        residual input division ∧
      ∀ r ∈ product.residualRegisters input division,
        r.toInt.natAbs < pow2 product.layout.productBits := by
  have hmap := ofCoefficients_residualRegisters h
  have hcoeff := natAbs_coeff_residual_lt h
  have hfits := product.layout.pow2_productBits_le
  constructor
  · exact Registers.ofCoefficients_map_toInt_of_map hmap fun i => (Nat.le_of_lt (hcoeff i)).trans hfits
  · exact Registers.natAbs_toInt_of_map hmap hfits hcoeff

/-- The carry check decides the division identity over the integers. -/
theorem carryCheck_decides (h : Identity product.layout input division) :
    ((CarryCheck.ofLayout product.layout).component.run
      (product.residualRegisters input division)).Decides
      (value product.layout.limbBits input.left * value product.layout.limbBits input.right =
        value product.layout.limbBits input.modulus *
            value product.layout.limbBits division.quotient +
          value product.layout.limbBits division.remainder) fun _ => True := by
  have hsized := CarryCheck.sized_ofLayout product.layout
  have hcarry : pow2 product.layout.productBits ≤ pow2 product.layout.carryBits :=
    pow2_le_pow2 (Nat.le_add_right _ 2)
  have hlength := length_residualRegisters product input division
  obtain ⟨hcoefficients, hsmall⟩ := residualRegisters_exact h
  refine ((hsized.decides hlength).weaken fun _ _ _ => trivial).congr ?_
  rw [hsized.passes_iff hlength fun r hr => (hsmall r hr).trans_le hcarry]
  change Registers.total product.layout.limbBits _ = 0 ↔ _
  rw [Registers.total_eq_eval, hcoefficients, eval_residual, sub_eq_zero, ← Nat.cast_mul,
    ← Nat.cast_mul, ← Nat.cast_add]
  exact Nat.cast_inj

end Residual

/-- The identity holds for the cut quotient iff nothing was cut off. -/
theorem identity_iff {product modulus bound : Nat} (hmodulus : modulus ≠ 0) (hbound : 0 < bound) :
    product = modulus * (product / modulus % bound) + product % modulus ↔
      product < modulus * bound := by
  have hdivision := Nat.div_add_mod product modulus
  have hpos := Nat.pos_of_ne_zero hmodulus
  constructor
  · intro h
    have hquotient : product / modulus % bound = product / modulus := by
      refine Nat.eq_of_mul_eq_mul_left hpos ?_
      omega
    have hlt := Nat.mod_lt (product / modulus) hbound
    rw [hquotient] at hlt
    rw [Nat.mul_comm]
    exact (Nat.div_lt_iff_lt_mul hpos).1 hlt
  · intro h
    have hlt : product / modulus < bound := by
      rw [Nat.div_lt_iff_lt_mul hpos, Nat.mul_comm]
      exact h
    rw [Nat.mod_eq_of_lt hlt, hdivision]

/-! ## The product -/

/-- The witness holds quotient and remainder of an integer by the modulus. -/
structure Witness.Exact (layout : Layout) (product modulus : Nat) (w : Witness) : Prop where
  inRange_out : InRange layout.limbBits w.out
  length_out : w.out.length = layout.limbCount
  value_out : value layout.limbBits w.out = product % modulus
  inRange_quotient : InRange layout.limbBits w.quotient
  value_quotient : value layout.limbBits w.quotient = product / modulus

/-- The factors and the modulus are limbs as the layout has them. -/
structure Input.Shaped (layout : Layout) (input : Input) : Prop where
  left : input.left.length = layout.limbCount
  right : input.right.length = layout.limbCount
  modulus : input.modulus.length = layout.limbCount

/-- A product has an answer iff the factors are in range, the modulus is not zero and the quotient
fits into the limbs of the layout. -/
structure Input.Reducible (layout : Layout) (input : Input) : Prop where
  left : InRange layout.limbBits input.left
  right : InRange layout.limbBits input.right
  modulus : value layout.limbBits input.modulus ≠ 0
  quotient : value layout.limbBits input.left * value layout.limbBits input.right <
    value layout.limbBits input.modulus * pow2 layout.totalBits

section Multiply

variable {input : Input}

/-- Dividing the product of factors in range by a modulus in range. -/
theorem divide_factors_decides (hshape : input.Shaped product.layout)
    (hleft : InRange product.layout.limbBits input.left)
    (hright : InRange product.layout.limbBits input.right)
    (hmodulus : InRange product.layout.limbBits input.modulus) :
    (product.divide (product.productValues input) input.modulus).Decides
      (value product.layout.limbBits input.modulus ≠ 0)
      (Divided product.layout
        (value product.layout.limbBits input.left * value product.layout.limbBits input.right)
        (value product.layout.limbBits input.modulus)) := by
  have hvalues : product.productValues input = (points product.layout.productLength).map fun x =>
    Coefficients.eval input.left x * Coefficients.eval input.right x := rfl
  obtain ⟨hproduct, hvalue⟩ := normalizedProduct_eq hleft hright hshape.left hshape.right hvalues
  have hlt := normalizedProduct_lt hleft hright hshape.left hshape.right hvalues
  have hdivide := divide_decides (length_productValues product input) hmodulus hshape.modulus
    hproduct hlt
  rwa [hvalue] at hdivide

/-- A product gets as far as its carry check iff the factors are in range and the modulus is not
zero. -/
theorem prepare_decides (hshape : input.Shaped product.layout)
    (hmodulus : InRange product.layout.limbBits input.modulus) :
    (product.prepare input).Decides
      (InRange product.layout.limbBits input.left ∧ InRange product.layout.limbBits input.right ∧
        value product.layout.limbBits input.modulus ≠ 0)
      fun prepared => Divided product.layout
        (value product.layout.limbBits input.left * value product.layout.limbBits input.right)
        (value product.layout.limbBits input.modulus) prepared.division := by
  apply (BitSplit.decides_each _ _ _).bind
  intro hleft leftRange _
  apply (BitSplit.decides_each _ _ _).bind
  intro hright rightRange _
  apply (divide_factors_decides hshape hleft hright hmodulus).bind_done
  intro hne division hdiv
  have hquotientRange := (BitSplit.decides_each product.layout.limbBits "range_q"
    division.quotient).congr (iff_true_intro hdiv.inRange_quotient)
  have hremainderRange := (BitSplit.decides_each product.layout.limbBits "range_r"
    division.remainder).congr (iff_true_intro hdiv.inRange_remainder)
  exact hquotientRange.bind_total fun _ _ => hremainderRange.bind_total fun _ _ =>
    Run.Decides.done hdiv

theorem identity_of_divided {division : Division} (hshape : input.Shaped product.layout)
    (hleft : InRange product.layout.limbBits input.left)
    (hright : InRange product.layout.limbBits input.right)
    (hmodulus : InRange product.layout.limbBits input.modulus) {dividend divisor : Nat}
    (hdiv : Divided product.layout dividend divisor division) :
    Identity product.layout input division where
  left := ⟨hleft, hshape.left⟩
  right := ⟨hright, hshape.right⟩
  modulus := ⟨hmodulus, hshape.modulus⟩
  quotient := ⟨hdiv.inRange_quotient, hdiv.length_quotient⟩
  remainder := ⟨hdiv.inRange_remainder, hdiv.length_remainder⟩

/-- After a division the carry check decides whether the whole quotient was kept. -/
theorem residual_decides {division : Division} (hshape : input.Shaped product.layout)
    (hleft : InRange product.layout.limbBits input.left)
    (hright : InRange product.layout.limbBits input.right)
    (hmodulus : InRange product.layout.limbBits input.modulus)
    (hne : value product.layout.limbBits input.modulus ≠ 0)
    (hdiv : Divided product.layout
      (value product.layout.limbBits input.left * value product.layout.limbBits input.right)
      (value product.layout.limbBits input.modulus) division) :
    ((CarryCheck.ofLayout product.layout).component.run
      (product.residualRegisters input division)).Decides
      (value product.layout.limbBits input.left * value product.layout.limbBits input.right <
        value product.layout.limbBits input.modulus * pow2 product.layout.totalBits)
      fun _ => True := by
  have hcheck := carryCheck_decides (identity_of_divided hshape hleft hright hmodulus hdiv)
  rwa [hdiv.value_quotient, hdiv.value_remainder, identity_iff hne (pow2_pos _)] at hcheck

theorem multiply_decides (hshape : input.Shaped product.layout)
    (hmodulus : InRange product.layout.limbBits input.modulus) :
    (product.multiply input).Decides (input.Reducible product.layout)
      (Witness.Exact product.layout
        (value product.layout.limbBits input.left * value product.layout.limbBits input.right)
        (value product.layout.limbBits input.modulus)) := by
  rw [multiply_eq]
  refine ((prepare_decides hshape hmodulus).bind fun ⟨hleft, hright, hne⟩ prepared hdiv =>
    (residual_decides hshape hleft hright hmodulus hne hdiv).place.bind_done
      fun hfits carryCheck _ => Run.Decides.done ?_).congr ?_
  · have hquotient : value product.layout.limbBits input.left *
        value product.layout.limbBits input.right / value product.layout.limbBits input.modulus <
          pow2 product.layout.totalBits := by
      rw [Nat.div_lt_iff_lt_mul (Nat.pos_of_ne_zero hne), Nat.mul_comm (pow2 _)]
      exact hfits
    exact ⟨hdiv.inRange_remainder, hdiv.length_remainder, hdiv.value_remainder,
      hdiv.inRange_quotient, hdiv.value_quotient.trans (Nat.mod_eq_of_lt hquotient)⟩
  · exact ⟨fun ⟨⟨hl, hr, hm⟩, hq⟩ => ⟨hl, hr, hm, hq⟩,
      fun ⟨hl, hr, hm, hq⟩ => ⟨⟨hl, hr, hm⟩, hq⟩⟩

end Multiply

theorem run_eq_multiply {input : Input} (hshape : input.Shaped product.layout) :
    product.component.run input = product.multiply input := by
  have hfind : [input.left, input.right, input.modulus].find?
      (·.length ≠ product.layout.limbCount) = none := by
    simp [hshape.left, hshape.right, hshape.modulus]
  unfold component
  dsimp only
  rw [hfind]

/-- The component multiplies modulo any modulus in range, where it has an answer. -/
theorem decides (input : Input) (hshape : input.Shaped product.layout)
    (hmodulus : InRange product.layout.limbBits input.modulus) :
    (product.component.run input).Decides (input.Reducible product.layout)
      (Witness.Exact product.layout
        (value product.layout.limbBits input.left * value product.layout.limbBits input.right)
        (value product.layout.limbBits input.modulus)) := by
  rw [run_eq_multiply hshape]
  exact multiply_decides hshape hmodulus

/-! ## Failures -/

section Failures

variable {input : Input}

/-- The product is the remainder of the division. -/
theorem out_eq_remainder {w : Witness} (h : (product.multiply input).outcome = .ok w) :
    w.out = w.remainder := by
  rw [multiply_eq] at h
  obtain ⟨_, _, h⟩ := Run.outcome_bind_eq_ok.1 h
  obtain ⟨_, _, h⟩ := Run.outcome_bind_eq_ok.1 h
  rw [← Except.ok.inj h]
  rfl

/-- A zero modulus stops the division, in the instance of the product itself. -/
theorem multiply_of_modulus_zero (hleft : InRange product.layout.limbBits input.left)
    (hright : InRange product.layout.limbBits input.right)
    (hzero : value product.layout.limbBits input.modulus = 0) :
    (product.multiply input).FailsWith fun failure =>
      failure = ⟨[], .arithmetic .divisionByZero⟩ := by
  apply Run.FailsWith.bind_right (BitSplit.decides_each _ _ _) hleft
  intro leftRange _
  apply Run.FailsWith.bind_right (BitSplit.decides_each _ _ _) hright
  intro rightRange _
  apply Run.FailsWith.bind_left
  change (product.divide (product.productValues input) input.modulus).FailsWith _
  rw [divide_eq (length_productValues product input)]
  apply Run.FailsWith.bind_right (Run.Decides.reports _) trivial
  intro _ _
  apply Run.FailsWith.bind_left
  rw [divide?_of_value_eq_zero hzero]
  exact ⟨_, rfl, rfl⟩

/-- If a part of the quotient is cut off, the carry check fails. -/
theorem multiply_of_quotient_cut (hshape : input.Shaped product.layout)
    (hleft : InRange product.layout.limbBits input.left)
    (hright : InRange product.layout.limbBits input.right)
    (hmodulus : InRange product.layout.limbBits input.modulus)
    (hne : value product.layout.limbBits input.modulus ≠ 0)
    (hcut : pow2 product.layout.totalBits ≤ value product.layout.limbBits input.left *
      value product.layout.limbBits input.right / value product.layout.limbBits input.modulus) :
    (product.multiply input).FailsWith fun failure =>
      ∃ inner, failure.place = inner ++ ["t_check"] := by
  have hlong : ¬ value product.layout.limbBits input.left *
      value product.layout.limbBits input.right <
        value product.layout.limbBits input.modulus * pow2 product.layout.totalBits := by
    rw [Nat.not_lt, Nat.mul_comm, ← Nat.le_div_iff_mul_le (Nat.pos_of_ne_zero hne)]
    exact hcut
  rw [multiply_eq]
  apply Run.FailsWith.bind_right (prepare_decides hshape hmodulus) ⟨hleft, hright, hne⟩
  intro prepared hdiv
  apply Run.FailsWith.bind_left
  exact Run.FailsWith.place_of_decides (residual_decides hshape hleft hright hmodulus hne hdiv) hlong
    "t_check"

end Failures

/-- For limbs of the layout's number and a modulus in range, a product has a result iff its factors
are in range, the modulus is not zero and the quotient is short enough for the limbs of the layout.
The result then holds quotient and remainder.  A zero modulus is an arithmetic error of the product
itself, and a quotient that is too long is refused by the carry check. -/
theorem product_exact (layout : Layout) (left right modulus : Limbs) (context : Context)
    (hleft : left.length = layout.limbCount) (hright : right.length = layout.limbCount)
    (hmodulus : modulus.length = layout.limbCount) (hrange : InRange layout.limbBits modulus) :
    let a := value layout.limbBits left
    let b := value layout.limbBits right
    let p := value layout.limbBits modulus
    let bound := pow2 (layout.limbBits * layout.limbCount)
    let result := (((ofLayout layout).component.run ⟨left, right, modulus⟩).exec context).1
    ((∃ w, result = .ok w) ↔
        InRange layout.limbBits left ∧ InRange layout.limbBits right ∧ p ≠ 0 ∧ a * b < p * bound) ∧
      (∀ w, result = .ok w → w.out = w.remainder ∧
        value layout.limbBits w.remainder = a * b % p ∧
        value layout.limbBits w.quotient = a * b / p ∧
        InRange layout.limbBits w.quotient ∧ InRange layout.limbBits w.remainder) ∧
      (InRange layout.limbBits left → InRange layout.limbBits right → p = 0 →
        ∃ e, result = .error (.error e) ∧ e.cause = .arithmetic .divisionByZero ∧
          e.path = context.path) ∧
      (InRange layout.limbBits left → InRange layout.limbBits right → p ≠ 0 → bound ≤ a * b / p →
        ∃ e inner, result = .error (.error e) ∧ e.path = inner ++ "t_check" :: context.path) := by
  intro a b p bound result
  have hshape : (⟨left, right, modulus⟩ : Input).Shaped (ofLayout layout).layout :=
    ⟨hleft, hright, hmodulus⟩
  have hrun : (ofLayout layout).component.run ⟨left, right, modulus⟩ =
      (ofLayout layout).multiply ⟨left, right, modulus⟩ := run_eq_multiply hshape
  have hdecides := multiply_decides hshape hrange
  have hresult : result = (((ofLayout layout).multiply ⟨left, right, modulus⟩).exec context).1 := by
    rw [← hrun]
  rw [hresult]
  refine ⟨⟨?_, ?_⟩, ?_, ?_, ?_⟩
  · rintro ⟨w, hw⟩
    obtain ⟨hreducible, _⟩ := hdecides.of_ok (Run.exec_eq_ok_iff.1 hw)
    exact ⟨hreducible.left, hreducible.right, hreducible.modulus, hreducible.quotient⟩
  · rintro ⟨hl, hr, hm, hq⟩
    obtain ⟨w, hw, _⟩ := hdecides.answers ⟨hl, hr, hm, hq⟩
    exact ⟨w, Run.exec_of_outcome_ok hw context⟩
  · intro w hw
    have hok := Run.exec_eq_ok_iff.1 hw
    obtain ⟨_, hexact⟩ := hdecides.of_ok hok
    have hout := out_eq_remainder hok
    exact ⟨hout, hout ▸ hexact.value_out, hexact.value_quotient, hexact.inRange_quotient,
      hout ▸ hexact.inRange_out⟩
  · intro hl hr hzero
    have hfails : ((ofLayout layout).multiply ⟨left, right, modulus⟩).FailsWith fun failure =>
        failure = ⟨[], .arithmetic .divisionByZero⟩ := multiply_of_modulus_zero hl hr hzero
    obtain ⟨e, failure, hexec, rfl, hpath, hcause⟩ := hfails.exec context
    exact ⟨e, hexec, hcause, hpath⟩
  · intro hl hr hne hcut
    obtain ⟨e, failure, hexec, ⟨inner, hinner⟩, hpath, _⟩ :=
      (multiply_of_quotient_cut hshape hl hr hrange hne hcut).exec context
    refine ⟨e, inner, hexec, ?_⟩
    rw [hpath, hinner, List.append_assoc, List.singleton_append]

theorem product_exact_sample :
    (∃ w, (((ofLayout .standard).component.run
        ⟨split 121 32 (2 ^ 3000), split 121 32 (2 ^ 2000), split 121 32 (2 ^ 3500 + 1)⟩).exec
          (Context.ofRoot "main")).1 = .ok w ∧
      value 121 w.out = 2 ^ 3000 * 2 ^ 2000 % (2 ^ 3500 + 1)) ∧
    (∃ e, (((ofLayout .standard).component.run
        ⟨split 121 32 (2 ^ 3000), split 121 32 (2 ^ 2000), split 121 32 0⟩).exec
          (Context.ofRoot "main")).1 = .error (.error e) ∧
      e.cause = .arithmetic .divisionByZero ∧ e.path = ["main"]) ∧
    ∃ e inner, (((ofLayout .standard).component.run
        ⟨split 121 32 (2 ^ 3000), split 121 32 (2 ^ 2000), split 121 32 1⟩).exec
          (Context.ofRoot "main")).1 = .error (.error e) ∧ e.path = inner ++ ["t_check", "main"] := by
  have hrange : ∀ v, InRange 121 (split 121 32 v) := inRange_split (by decide) 32
  have hlength := fun v => length_split 121 32 v
  refine ⟨?_, ?_, ?_⟩
  · obtain ⟨hiff, hok, _⟩ := product_exact .standard _ _ _ (Context.ofRoot "main") (hlength (2 ^ 3000))
      (hlength (2 ^ 2000)) (hlength (2 ^ 3500 + 1)) (hrange _)
    obtain ⟨w, hw⟩ := hiff.2 ⟨hrange _, hrange _, by decide +kernel, by decide +kernel⟩
    obtain ⟨hout, hremainder, _⟩ := hok w hw
    refine ⟨w, hw, ?_⟩
    rw [hout]
    refine hremainder.trans ?_
    decide +kernel
  · obtain ⟨_, _, hzero, _⟩ := product_exact .standard _ _ _ (Context.ofRoot "main") (hlength (2 ^ 3000))
      (hlength (2 ^ 2000)) (hlength 0) (hrange _)
    exact hzero (hrange _) (hrange _) (by decide +kernel)
  · obtain ⟨_, _, _, hcut⟩ := product_exact .standard _ _ _ (Context.ofRoot "main") (hlength (2 ^ 3000))
      (hlength (2 ^ 2000)) (hlength 1) (hrange _)
    exact hcut (hrange _) (hrange _) (by decide +kernel) (by decide +kernel)

end ModularProduct

end RsaCircuit
