import Mathlib.Tactic.Ring
import RsaCircuit.Limbs.Division
import RsaCircuit.Proofs.Limbs.Arithmetic
set_option autoImplicit false

/-!
# One digit of a division

The estimate divides what stands above a position `pow2 (width * (k - 1))` in the dividend by what
stands above it in the divisor.  Such an estimate is never too small (`div_le_leading`), and at most
two too large if the leading limb of the divisor is at least half the base (`leading_le_div`); then
comparing its multiple of the divisor with the dividend corrects it (`val_correct`).  Scaling by the
base over one more than the leading limb brings it there (`le_two_mul_scaled`), and costs neither
operand another limb (`Scaled`).
-/

namespace RsaCircuit

/-! ## Leading digits -/

theorem div_le_leading {a b unit : Nat} (hb : 0 < b / unit) :
    a / b ≤ a / unit / (b / unit) := by
  have hunit : 0 < unit := by
    rcases Nat.eq_zero_or_pos unit with h0 | hpos
    · rw [h0, Nat.div_zero] at hb
      exact absurd hb (Nat.lt_irrefl 0)
    · exact hpos
  rw [Nat.le_div_iff_mul_le hb, Nat.le_div_iff_mul_le hunit]
  calc a / b * (b / unit) * unit = a / b * (b / unit * unit) := Nat.mul_assoc _ _ _
    _ ≤ a / b * b := Nat.mul_le_mul_left _ (Nat.div_mul_le_self b unit)
    _ ≤ a := Nat.div_mul_le_self a b

theorem lt_succ_div_mul (a : Nat) {b : Nat} (hb : 0 < b) : a < (a / b + 1) * b := by
  rw [Nat.mul_comm]
  exact Nat.lt_mul_div_succ a hb

/-- Three too many would put the leading part of the divisor below half the base. -/
theorem leading_le_div {a b unit base : Nat} (hb : 0 < b / unit) (hbase : base ≤ 2 * (b / unit)) :
    min (a / unit / (b / unit)) (base - 1) ≤ a / b + 2 := by
  have hunit : 0 < unit := by
    rcases Nat.eq_zero_or_pos unit with h0 | hpos
    · rw [h0, Nat.div_zero] at hb
      exact absurd hb (Nat.lt_irrefl 0)
    · exact hpos
  have hbpos : 0 < b := Nat.pos_of_ne_zero fun h0 => by
    rw [h0, Nat.zero_div] at hb
    exact absurd hb (Nat.lt_irrefl 0)
  by_contra hcontra
  obtain ⟨hguess, hclamp⟩ := lt_min_iff.1 (not_le.1 hcontra)
  have hlower : (a / b + 3) * (b / unit) * unit ≤ a := by
    have hmul := (Nat.le_div_iff_mul_le hb).1 (Nat.succ_le_of_lt hguess)
    exact (Nat.le_div_iff_mul_le hunit).1 hmul
  have hupper : a < (a / b + 1) * ((b / unit + 1) * unit) :=
    (lt_succ_div_mul a hbpos).trans_le
      (Nat.mul_le_mul_left _ (Nat.le_of_lt (lt_succ_div_mul b hunit)))
  have hcancel : (a / b + 3) * (b / unit) < (a / b + 1) * (b / unit + 1) := by
    refine Nat.lt_of_mul_lt_mul_right (a := unit) ?_
    rw [Nat.mul_assoc (a / b + 1)]
    exact hlower.trans_lt hupper
  have hexpand : (a / b + 3) * (b / unit) = (a / b + 1) * (b / unit) + 2 * (b / unit) := by ring
  rw [hexpand, Nat.mul_add, Nat.mul_one] at hcancel
  omega

/-- A leading digit scaled by the even base over its successor reaches half the base. -/
theorem le_two_mul_scaled {half leading : Nat} (hpos : 0 < leading) (hlt : leading < 2 * half) :
    2 * half ≤ 2 * (2 * half / (leading + 1) * leading) := by
  have hdivmod := Nat.div_add_mod (2 * half) (leading + 1)
  have hmod := Nat.mod_lt (2 * half) (Nat.succ_pos leading)
  have hfactor : 0 < 2 * half / (leading + 1) := Nat.div_pos hlt (Nat.succ_pos leading)
  generalize 2 * half / (leading + 1) = factor at *
  generalize 2 * half % (leading + 1) = rest at *
  have hexpand : (leading + 1) * factor = factor * leading + factor := by ring
  rcases Nat.lt_or_ge factor 2 with hone | htwo
  · -- the factor is one, and the rest cannot be `leading`, as the base is even
    have hfactor1 : factor = 1 := by omega
    subst hfactor1
    omega
  · rcases Nat.lt_or_ge leading 2 with hsmall | hlarge
    · have hleading : leading = 1 := by omega
      subst hleading
      omega
    · have hmul : 2 * (leading - 1) ≤ factor * (leading - 1) := Nat.mul_le_mul_right _ htwo
      have hsplit : factor * leading = factor * (leading - 1) + factor := by
        obtain ⟨m, rfl⟩ : ∃ m, leading = m + 1 := ⟨leading - 1, by omega⟩
        rw [Nat.add_sub_cancel, Nat.mul_add, Nat.mul_one]
      omega

namespace Limbs

variable {width : Nat}

/-- A field element holds two digits of at most 126 bits each. -/
theorem width_le_of_fits (h : pow2 (2 * width) ≤ fieldOrder) : width ≤ 126 := by
  by_contra hwide
  have hle : pow2 254 ≤ pow2 (2 * width) := pow2_le_pow2 (by omega)
  have hfield : fieldOrder < pow2 254 := by decide
  omega

theorem pow2_two_mul_lt_fieldOrder (hwidth : width ≤ 126) : pow2 width * pow2 width < fieldOrder := by
  rw [← pow2_add]
  exact pow2_lt_fieldOrder (by omega)

/-! ## Leading limbs -/

theorem value_div_eq_getLastD {b : Limbs} (hb : InRange width b) :
    value width b / pow2 (width * (b.length - 1)) = (b.getLastD 0).val := by
  rw [← value_drop hb]
  cases b using List.reverseRecOn with
  | nil => rfl
  | append_singleton low top =>
    rw [List.length_append, List.length_singleton, Nat.add_sub_cancel, List.drop_left,
      List.getLastD_concat, value_cons, value_nil, Nat.mul_zero, Nat.add_zero]

theorem value_div_eq_leading {a : Limbs} (ha : InRange width a) {k : Nat} (hk : 0 < k)
    (hlength : a.length = k + 1) :
    value width a / pow2 (width * (k - 1)) =
      (a.getD k 0).val * pow2 width + (a.getD (k - 1) 0).val := by
  obtain ⟨m, rfl⟩ : ∃ m, k = m + 1 := ⟨k - 1, by omega⟩
  have hm : m < a.length := by omega
  have hm1 : m + 1 < a.length := by omega
  have hnil : a.drop (m + 1 + 1) = [] := List.drop_of_length_le (by omega)
  rw [Nat.add_sub_cancel, ← value_drop ha, List.drop_eq_getElem_cons hm,
    List.drop_eq_getElem_cons hm1, hnil, List.getD_eq_getElem _ _ hm, List.getD_eq_getElem _ _ hm1,
    value_cons, value_cons, value_nil, Nat.mul_zero, Nat.add_zero, Nat.mul_comm (pow2 width),
    Nat.add_comm]

theorem getLastD_lt {b : Limbs} (hb : InRange width b) : (b.getLastD 0).val < pow2 width := by
  cases b using List.reverseRecOn with
  | nil => exact pow2_pos width
  | append_singleton low top =>
    rw [List.getLastD_concat]
    exact hb top (List.mem_append_right low List.mem_cons_self)

/-! ## The normalised digit -/

section Digit

variable {a b : Limbs}

/-- The two leading limbs of the dividend do not wrap. -/
theorem val_leading_pair (hwidth : width ≤ 126) (ha : InRange width a)
    (hlength : a.length = b.length + 1) (hpos : 0 < b.length) :
    (a.getD b.length 0 * Scalar.twoPow width + a.getD (b.length - 1) 0).val =
        value width a / pow2 (width * (b.length - 1)) ∧
      value width a / pow2 (width * (b.length - 1)) < pow2 width * pow2 width := by
  have hbase : (Scalar.twoPow width).val = pow2 width := Scalar.val_twoPow (by omega)
  have hsquare := pow2_two_mul_lt_fieldOrder hwidth
  have hlow := ha.getD (b.length - 1)
  have hbound : (a.getD b.length 0).val * pow2 width + (a.getD (b.length - 1) 0).val <
      pow2 width * pow2 width := by
    have hmul := Nat.mul_le_mul_right (pow2 width) (Nat.succ_le_of_lt (ha.getD b.length))
    rw [Nat.succ_mul] at hmul
    omega
  have hproduct : (a.getD b.length 0).val * pow2 width < fieldOrder := by omega
  rw [value_div_eq_leading ha hpos hlength]
  refine ⟨?_, hbound⟩
  rw [Scalar.val_add, Scalar.val_mul, hbase, Nat.mod_eq_of_lt hproduct,
    Nat.mod_eq_of_lt (hbound.trans hsquare)]

/-- The estimate is the quotient of the leading limbs, cut to the largest digit. -/
theorem val_estimate (hwidth : width ≤ 126) (ha : InRange width a)
    (hlength : a.length = b.length + 1) (hpos : 0 < b.length)
    (hleading : pow2 width ≤ 2 * (b.getLastD 0).val) :
    (estimate width a b).val =
      min (value width a / pow2 (width * (b.length - 1)) / (b.getLastD 0).val) (pow2 width - 1) := by
  have hbase : (Scalar.twoPow width).val = pow2 width := Scalar.val_twoPow (by omega)
  have hmax : pow2 (width + 1) ≤ maxMagnitude := pow2_le_maxMagnitude (by omega)
  have htwo := pow2_succ width
  have hone := pow2_pos width
  obtain ⟨hdividend, hbound⟩ := val_leading_pair hwidth ha hlength hpos
  set quotient :=
    (a.getD b.length 0 * Scalar.twoPow width + a.getD (b.length - 1) 0).intDiv (b.getLastD 0)
    with hquotient
  have hval : quotient.val =
      value width a / pow2 (width * (b.length - 1)) / (b.getLastD 0).val := by
    rw [hquotient, Scalar.val_intDiv, hdividend]
  have hlast : (Scalar.twoPow width - 1).val = pow2 width - 1 := by
    rw [Scalar.val_sub_of_le (by rw [hbase, Scalar.val_one]; exact hone), hbase, Scalar.val_one]
  have hsmall : quotient.val < pow2 (width + 1) := by
    rw [hval, Nat.div_lt_iff_lt_mul (by omega)]
    calc _ < pow2 width * pow2 width := hbound
      _ ≤ pow2 width * (2 * (b.getLastD 0).val) := Nat.mul_le_mul_left _ hleading
      _ = pow2 (width + 1) * (b.getLastD 0).val := by rw [htwo]; ring
  have hcompare : quotient.signedCompare (Scalar.twoPow width - 1) =
      Ord.compare quotient.val (pow2 width - 1) := by
    rw [Scalar.signedCompare_of_le (by omega) (by rw [hlast]; omega), hlast]
  rw [← hval]
  change (if quotient.signedCompare (Scalar.twoPow width - 1) == .gt then Scalar.twoPow width - 1
    else quotient).val = _
  rw [hcompare]
  rcases Nat.lt_or_ge (pow2 width - 1) quotient.val with h | h
  · rw [compare_gt_iff_gt.2 h, if_pos (beq_self_eq_true _), hlast,
      Nat.min_eq_right (Nat.le_of_lt h)]
  · rw [if_neg, Nat.min_eq_left h]
    rw [beq_iff_eq, compare_gt_iff_gt]
    exact Nat.not_lt.2 h

/-- The multiple of the divisor by a digit is exact. -/
theorem scale_digit (hwidth : width ≤ 126) (hb : InRange width b) {digit : Scalar}
    (hdigit : digit.val < pow2 width) :
    InRange width (scale width digit b) ∧
      value width (scale width digit b) = digit.val * value width b := by
  have hfit : digit.val * pow2 width ≤ fieldOrder :=
    (Nat.mul_le_mul_right _ (Nat.le_of_lt hdigit)).trans
      (Nat.le_of_lt (pow2_two_mul_lt_fieldOrder hwidth))
  exact ⟨inRange_scale (by omega) hfit hb (Nat.le_of_lt hdigit), value_scale (by omega) hfit hb⟩

/-- Multiples of the divisor are above the dividend from the quotient's successor on. -/
theorem exceeds_scale_iff (hwidth : width ≤ 126) (ha : InRange width a) (hb : InRange width b)
    (hpos : 0 < value width b) {digit : Scalar} (hdigit : digit.val < pow2 width) :
    exceeds (scale width digit b) a = true ↔ value width a / value width b < digit.val := by
  obtain ⟨hrange, hmultiple⟩ := scale_digit hwidth hb hdigit
  rw [exceeds_iff (by omega) hrange ha, hmultiple, Nat.div_lt_iff_lt_mul hpos]

/-- One multiple less can be taken from any multiple that is not zero, without a borrow out of the
last limb. -/
theorem sub_scale (hwidth : width ≤ 126) (hb : InRange width b) {digit : Scalar}
    (hdigit : digit.val < pow2 width) (hne : 0 < digit.val) :
    value width b ≤ value width (scale width digit b) ∧
      InRange width (sub width (scale width digit b) b) ∧
      value width (sub width (scale width digit b) b) = (digit.val - 1) * value width b := by
  obtain ⟨hrange, hmultiple⟩ := scale_digit hwidth hb hdigit
  have hle : value width b ≤ value width (scale width digit b) := by
    rw [hmultiple]
    exact Nat.le_mul_of_pos_left _ hne
  refine ⟨hle, inRange_sub (by omega) hrange hb, ?_⟩
  rw [value_sub (by omega) hrange hb hle, hmultiple, Nat.sub_mul, Nat.one_mul]

/-- An estimate that is at most two too large is corrected to the quotient. -/
theorem val_correct (hwidth : width ≤ 126) (ha : InRange width a) (hb : InRange width b)
    (hpos : 0 < value width b) {guess : Scalar} (hguess : guess.val < pow2 width)
    (hlower : value width a / value width b ≤ guess.val)
    (hupper : guess.val ≤ value width a / value width b + 2) :
    (correct width a b guess).val = value width a / value width b := by
  have hexceeds := exceeds_scale_iff hwidth ha hb hpos hguess
  have hless (h : 0 < guess.val) : exceeds (sub width (scale width guess b) b) a = true ↔
      value width a / value width b < guess.val - 1 := by
    obtain ⟨_, hrange, hvalue⟩ := sub_scale hwidth hb hguess h
    rw [exceeds_iff (by omega) hrange ha, hvalue, Nat.div_lt_iff_lt_mul hpos]
  generalize value width a / value width b = quotient at *
  have hone : (1 : Scalar).val = 1 := rfl
  have htwo : (Scalar.ofNat 2).val = 2 := rfl
  rw [correct]
  by_cases hfirst : quotient < guess.val
  · rw [if_pos (hexceeds.2 hfirst)]
    have hagain := hless (by omega)
    by_cases hsecond : quotient < guess.val - 1
    · rw [if_pos (hagain.2 hsecond), Scalar.val_sub_of_le (by omega)]
      omega
    · rw [if_neg fun h => hsecond (hagain.1 h), Scalar.val_sub_of_le (by omega)]
      omega
  · rw [if_neg fun h => hfirst (hexceeds.1 h)]
    omega

theorem value_pos_of_getLastD (hb : InRange width b) (h : 0 < (b.getLastD 0).val) :
    0 < value width b := by
  rw [← value_div_eq_getLastD hb] at h
  exact Nat.pos_of_ne_zero fun h0 => by
    rw [h0, Nat.zero_div] at h
    exact absurd h (Nat.lt_irrefl 0)

/-- Operands of a normalised digit: a divisor whose leading limb is at least half the base, and a
dividend one limb longer whose quotient is a digit. -/
structure Normalized (width : Nat) (a b : Limbs) : Prop where
  dividend : InRange width a
  divisor : InRange width b
  length_eq : a.length = b.length + 1
  half : pow2 width ≤ 2 * (b.getLastD 0).val
  lt : value width a < value width b * pow2 width

namespace Normalized

theorem leading_pos (h : Normalized width a b) : 0 < (b.getLastD 0).val := by
  have hone := pow2_pos width
  have hhalf := h.half
  omega

theorem leading_ne_zero (h : Normalized width a b) : b.getLastD 0 ≠ 0 := fun h0 => by
  have hpos := h.leading_pos
  rw [h0] at hpos
  exact absurd hpos (Nat.lt_irrefl 0)

theorem length_pos (h : Normalized width a b) : 0 < b.length :=
  List.length_pos_iff.2 fun hnil => h.leading_ne_zero (by rw [hnil]; rfl)

theorem divisor_pos (h : Normalized width a b) : 0 < value width b :=
  value_pos_of_getLastD h.divisor h.leading_pos

theorem quotient_lt (h : Normalized width a b) : value width a / value width b < pow2 width := by
  rw [Nat.div_lt_iff_lt_mul h.divisor_pos, Nat.mul_comm]
  exact h.lt

/-- The estimate is a digit, not too small and at most two too large. -/
theorem estimate_bounds (h : Normalized width a b) (hwidth : width ≤ 126) :
    (estimate width a b).val < pow2 width ∧
      value width a / value width b ≤ (estimate width a b).val ∧
      (estimate width a b).val ≤ value width a / value width b + 2 := by
  have hone := pow2_pos width
  have hquotient := h.quotient_lt
  have hunit := value_div_eq_getLastD h.divisor
  have hleading : 0 < value width b / pow2 (width * (b.length - 1)) := by
    rw [hunit]
    exact h.leading_pos
  rw [val_estimate hwidth h.dividend h.length_eq h.length_pos h.half, ← hunit]
  refine ⟨(min_le_right _ _).trans_lt (by omega), ?_, ?_⟩
  · exact le_min (div_le_leading hleading) (by omega)
  · exact leading_le_div hleading (by rw [hunit]; exact h.half)

/-- The digit of a divisor whose leading limb is at least half the base. -/
theorem digit_eq (h : Normalized width a b) (hwidth : width ≤ 126) :
    ∃ digit, normalizedDigit? width a b = .ok digit ∧
      digit.val = value width a / value width b := by
  obtain ⟨hdigit, hlower, hupper⟩ := h.estimate_bounds hwidth
  exact ⟨_, if_neg h.leading_ne_zero,
    val_correct hwidth h.dividend h.divisor h.divisor_pos hdigit hlower hupper⟩

end Normalized

/-! ## The digit of any divisor -/

/-- The factor of the scaling brings the leading limb to half the base, and the divisor not beyond
its number of limbs. -/
theorem scaled_divisor (hb : InRange width b) (hwidth : 0 < width)
    (hlast : 0 < (b.getLastD 0).val) :
    let factor := pow2 width / ((b.getLastD 0).val + 1)
    factor * value width b < pow2 (width * b.length) ∧
      pow2 width ≤ 2 * (factor * value width b / pow2 (width * (b.length - 1))) := by
  intro factor
  have hpos : 0 < b.length := List.length_pos_iff.2 fun hnil => by
    rw [hnil] at hlast
    exact absurd hlast (Nat.lt_irrefl 0)
  have hunit := value_div_eq_getLastD hb
  have hleading := getLastD_lt hb
  have hupos := pow2_pos (width * (b.length - 1))
  constructor
  · have hvalue : value width b < ((b.getLastD 0).val + 1) * pow2 (width * (b.length - 1)) := by
      rw [← hunit]
      exact lt_succ_div_mul _ hupos
    have hlength : width * b.length = width + width * (b.length - 1) := by
      obtain ⟨m, hm⟩ : ∃ m, b.length = m + 1 := ⟨b.length - 1, by omega⟩
      rw [hm, Nat.add_sub_cancel, Nat.mul_add, Nat.mul_one, Nat.add_comm]
    have hfactor : 0 < factor := Nat.div_pos hleading (Nat.succ_pos _)
    calc factor * value width b
        < factor * (((b.getLastD 0).val + 1) * pow2 (width * (b.length - 1))) :=
          Nat.mul_lt_mul_of_pos_left hvalue hfactor
      _ = factor * ((b.getLastD 0).val + 1) * pow2 (width * (b.length - 1)) :=
          (Nat.mul_assoc _ _ _).symm
      _ ≤ pow2 width * pow2 (width * (b.length - 1)) :=
          Nat.mul_le_mul_right _ (Nat.div_mul_le_self _ _)
      _ = pow2 (width * b.length) := by rw [hlength, pow2_add]
  · obtain ⟨m, rfl⟩ : ∃ m, width = m + 1 := ⟨width - 1, by omega⟩
    have hscaled : pow2 (m + 1) ≤ 2 * (factor * (b.getLastD 0).val) := by
      have hhalf := @le_two_mul_scaled (pow2 m) _ hlast (by rw [← pow2_succ]; exact hleading)
      rw [← pow2_succ] at hhalf
      exact hhalf
    refine hscaled.trans (Nat.mul_le_mul_left 2 ?_)
    rw [← hunit]
    exact Nat.mul_div_le_mul_div_assoc _ _ _

/-- A factor that makes the leading limb of a divisor at least half the base, without another limb. -/
structure Scales (width : Nat) (factor : Scalar) (b : Limbs) : Prop where
  pos : 0 < factor.val
  le_base : factor.val ≤ pow2 width
  fits : factor.val * value width b < pow2 (width * b.length)
  half : pow2 width ≤ 2 * (factor.val * value width b / pow2 (width * (b.length - 1)))

theorem val_leading_succ (hwidth : width ≤ 126) (hb : InRange width b) :
    (b.getLastD 0 + 1).val = (b.getLastD 0).val + 1 := by
  have hleading := getLastD_lt hb
  have hfield := pow2_lt_fieldOrder (show width ≤ 253 by omega)
  rw [Scalar.val_add, Scalar.val_one, Nat.mod_eq_of_lt (by omega)]

theorem scales_intDiv (hpos : 0 < width) (hwidth : width ≤ 126) (hb : InRange width b)
    (hlast : 0 < (b.getLastD 0).val) :
    Scales width ((Scalar.twoPow width).intDiv (b.getLastD 0 + 1)) b := by
  have hfactor : ((Scalar.twoPow width).intDiv (b.getLastD 0 + 1)).val =
      pow2 width / ((b.getLastD 0).val + 1) := by
    rw [Scalar.val_intDiv, Scalar.val_twoPow (by omega), val_leading_succ hwidth hb]
  obtain ⟨hfits, hhalf⟩ := scaled_divisor hb hpos hlast
  rw [← hfactor] at hfits hhalf
  refine ⟨?_, ?_, hfits, hhalf⟩
  · rw [hfactor]
    exact Nat.div_pos (getLastD_lt hb) (Nat.succ_pos _)
  · rw [hfactor]
    exact Nat.div_le_self _ _

/-- A multiple that as many limbs hold ends with the limb zero. -/
theorem exists_scale_eq_concat (hwidth : width ≤ 126) {factor : Scalar}
    (hfactor : factor.val ≤ pow2 width) {xs : Limbs} (hxs : InRange width xs)
    (hlt : factor.val * value width xs < pow2 (width * xs.length)) :
    ∃ scaled, scale width factor xs = scaled ++ [0] ∧ scaled.length = xs.length ∧
      InRange width scaled ∧ value width scaled = factor.val * value width xs := by
  have hfit : factor.val * pow2 width ≤ fieldOrder :=
    (Nat.mul_le_mul_right _ hfactor).trans (Nat.le_of_lt (pow2_two_mul_lt_fieldOrder hwidth))
  obtain ⟨low, top, heq, hlength, hlow, _⟩ := scale_digits (by omega) hfit hxs
  have hvalue : value width (low ++ [top]) = factor.val * value width xs := by
    rw [← heq, value_scale (by omega) hfit hxs]
  have htop : top = 0 := by
    have hlast := val_last_scale (by omega) hfit hxs
    rw [heq, List.getLastD_concat, Nat.div_eq_of_lt hlt] at hlast
    exact Scalar.ext_val hlast
  subst htop
  exact ⟨low, heq, hlength, hlow, by simpa [value_append] using hvalue⟩

/-- Dividend and divisor scaled by one factor without a limb more, with the leading limb of the
divisor brought to half the base. -/
structure Scaled (width : Nat) (factor : Scalar) (a b scaledA scaledB : Limbs) : Prop where
  dividend_eq : scale width factor a = scaledA ++ [0]
  divisor_eq : scale width factor b = scaledB ++ [0]
  length_dividend : scaledA.length = a.length
  length_divisor : scaledB.length = b.length
  inRange_dividend : InRange width scaledA
  inRange_divisor : InRange width scaledB
  value_dividend : value width scaledA = factor.val * value width a
  value_divisor : value width scaledB = factor.val * value width b
  half : pow2 width ≤ 2 * (scaledB.getLastD 0).val

theorem Scaled.top_eq_zero {factor : Scalar} {scaledA scaledB : Limbs}
    (h : Scaled width factor a b scaledA scaledB) :
    (scale width factor b).getD b.length 0 = 0 := by
  simp [h.divisor_eq, ← h.length_divisor]

theorem Scales.exists_scaled {factor : Scalar} (h : Scales width factor b) (hwidth : width ≤ 126)
    (ha : InRange width a) (hb : InRange width b) (hlength : a.length = b.length + 1)
    (hlt : value width a < value width b * pow2 width) :
    ∃ scaledA scaledB, Scaled width factor a b scaledA scaledB := by
  have hfits : factor.val * value width a < pow2 (width * a.length) := by
    rw [hlength, pow2_mul_succ]
    calc factor.val * value width a
        < factor.val * (value width b * pow2 width) := Nat.mul_lt_mul_of_pos_left hlt h.pos
      _ = pow2 width * (factor.val * value width b) := by ring
      _ ≤ pow2 width * pow2 (width * b.length) :=
          Nat.mul_le_mul_left _ (Nat.le_of_lt h.fits)
  obtain ⟨scaledA, heqA, hlengthA, hrangeA, hvalueA⟩ :=
    exists_scale_eq_concat hwidth h.le_base ha hfits
  obtain ⟨scaledB, heqB, hlengthB, hrangeB, hvalueB⟩ :=
    exists_scale_eq_concat hwidth h.le_base hb h.fits
  refine ⟨scaledA, scaledB, heqA, heqB, hlengthA, hlengthB, hrangeA, hrangeB, hvalueA, hvalueB, ?_⟩
  rw [← value_div_eq_getLastD hrangeB, hvalueB, hlengthB]
  exact h.half

/-- No limb is cut off from the scaled operands but a zero, so the digit is that of their values. -/
theorem digit?_of_scaled (hwidth : width ≤ 126) (hb : InRange width b)
    (hlength : a.length = b.length + 1) (hlast : 0 < (b.getLastD 0).val) {scaledA scaledB : Limbs}
    (h : Scaled width ((Scalar.twoPow width).intDiv (b.getLastD 0 + 1)) a b scaledA scaledB) :
    digit? width a b = (normalizedDigit? width scaledA scaledB).mapError .error := by
  have hsucc : b.getLastD 0 + 1 ≠ 0 := by
    intro h0
    have hval := val_leading_succ hwidth hb
    rw [h0, Scalar.val_zero] at hval
    omega
  have hsome : b.getLast? = some (b.getLastD 0) := by
    cases b using List.reverseRecOn with
    | nil => exact absurd hlast (Nat.lt_irrefl 0)
    | append_singleton low top => rw [List.getLast?_concat, List.getLastD_concat]
  rw [digit?, hsome]
  dsimp only
  rw [if_neg hsucc, if_pos h.top_eq_zero, h.dividend_eq, h.divisor_eq, ← hlength,
    ← h.length_dividend, List.take_left, ← h.length_divisor, List.take_left]

/-- The digit of any divisor whose leading limb is not zero. -/
theorem digit?_eq (hpos : 0 < width) (hwidth : width ≤ 126) (ha : InRange width a)
    (hb : InRange width b) (hlength : a.length = b.length + 1) (hlast : 0 < (b.getLastD 0).val)
    (hlt : value width a < value width b * pow2 width) :
    ∃ digit, digit? width a b = .ok digit ∧ digit.val = value width a / value width b := by
  have hscales := scales_intDiv hpos hwidth hb hlast
  obtain ⟨scaledA, scaledB, hscaled⟩ := hscales.exists_scaled hwidth ha hb hlength hlt
  have hltScaled : value width scaledA < value width scaledB * pow2 width := by
    rw [hscaled.value_dividend, hscaled.value_divisor, Nat.mul_assoc]
    exact Nat.mul_lt_mul_of_pos_left hlt hscales.pos
  have hnormalized : Normalized width scaledA scaledB :=
    ⟨hscaled.inRange_dividend, hscaled.inRange_divisor,
      by rw [hscaled.length_dividend, hscaled.length_divisor, hlength], hscaled.half, hltScaled⟩
  obtain ⟨digit, hdigit, hval⟩ := hnormalized.digit_eq hwidth
  refine ⟨digit, ?_, ?_⟩
  · rw [digit?_of_scaled hwidth hb hlength hlast hscaled, hdigit]
    rfl
  · rw [hval, hscaled.value_dividend, hscaled.value_divisor, Nat.mul_div_mul_left _ _ hscales.pos]

end Digit

/-! ## Exactness -/

/-- While a field element holds two digits, the estimate for a divisor whose leading limb is at least
half the base is the clamped quotient of the leading limbs, without a wrap, and is never too small
and at most two too large.  Its correction gives the quotient of the values: where a multiple of the
divisor is taken back, it is not below the divisor, so the difference loses no borrow. -/
theorem normalizedDigit?_exact (width : Nat) (a b : Limbs) (hfit : 2 ^ (2 * width) ≤ fieldOrder)
    (ha : InRange width a) (hb : InRange width b) (hlength : a.length = b.length + 1)
    (hhalf : 2 ^ width ≤ 2 * (b.getLastD 0).val)
    (hlt : value width a < value width b * 2 ^ width) :
    let quotient := value width a / value width b
    let guess := estimate width a b
    let multiple := scale width guess b
    guess.val = min (((a.getD b.length 0).val * 2 ^ width + (a.getD (b.length - 1) 0).val) /
        (b.getLastD 0).val) (2 ^ width - 1) ∧
      quotient ≤ guess.val ∧ guess.val ≤ quotient + 2 ∧
      (∃ digit, normalizedDigit? width a b = .ok digit ∧ digit.val = quotient) ∧
      (exceeds multiple a = true → value width b ≤ value width multiple ∧
        value width (sub width multiple b) = value width multiple - value width b) := by
  intro quotient guess multiple
  have hwidth : width ≤ 126 := width_le_of_fits hfit
  have hnormalized : Normalized width a b := ⟨ha, hb, hlength, hhalf, hlt⟩
  obtain ⟨hdigit, hlower, hupper⟩ := hnormalized.estimate_bounds hwidth
  refine ⟨?_, hlower, hupper, hnormalized.digit_eq hwidth, fun hexceeds => ?_⟩
  · have hestimate := val_estimate hwidth ha hlength hnormalized.length_pos hhalf
    rwa [value_div_eq_leading ha hnormalized.length_pos hlength] at hestimate
  · have hne : 0 < guess.val := Nat.zero_lt_of_lt
      ((exceeds_scale_iff hwidth ha hb hnormalized.divisor_pos hdigit).1 hexceeds)
    obtain ⟨hle, _, hvalue⟩ := sub_scale hwidth hb hdigit hne
    refine ⟨hle, ?_⟩
    rw [hvalue, (scale_digit hwidth hb hdigit).2, Nat.sub_mul, Nat.one_mul]

/-- The estimate for these operands is two too large, and both corrections are made. -/
theorem normalizedDigit?_exact_sample :
    let a := [0, 56, 114].map Scalar.ofNat
    let b := [255, 170].map Scalar.ofNat
    (∃ digit, normalizedDigit? 8 a b = .ok digit ∧ digit.val = 170) ∧
      (estimate 8 a b).val = 172 ∧
      value 8 (sub 8 (scale 8 (estimate 8 a b) b) b) = 171 * 43775 := by
  intro a b
  obtain ⟨hguess, _, _, ⟨digit, hdigit, hval⟩, hsub⟩ := normalizedDigit?_exact 8 a b (by decide)
    (by decide) (by decide) rfl (by decide) (by decide)
  exact ⟨⟨digit, hdigit, hval.trans (by decide)⟩, hguess.trans (by decide),
    (hsub (by decide)).2.trans (by decide)⟩

/-- While a field element holds two digits, the digit of a divisor whose leading limb is not zero is
the quotient of the values, and below the base.  The scaled divisor keeps its number of limbs and has
a leading limb of at least half the base, and the scaled dividend keeps its number of limbs too, so
the digit is taken from the scaled values whole. -/
theorem digit?_exact (width : Nat) (a b : Limbs) (hpos : 1 ≤ width)
    (hfit : 2 ^ (2 * width) ≤ fieldOrder) (ha : InRange width a) (hb : InRange width b)
    (hlength : a.length = b.length + 1) (hleading : b.getLastD 0 ≠ 0)
    (hlt : value width a < value width b * 2 ^ width) :
    let factor := (Scalar.twoPow width).intDiv (b.getLastD 0 + 1)
    (∃ digit, digit? width a b = .ok digit ∧ digit.val = value width a / value width b ∧
      digit.val < 2 ^ width) ∧
    (scale width factor b).getD b.length 0 = 0 ∧
    ∃ scaledA scaledB, scale width factor a = scaledA ++ [0] ∧ scaledA.length = b.length + 1 ∧
      value width scaledA = factor.val * value width a ∧
      scale width factor b = scaledB ++ [0] ∧ scaledB.length = b.length ∧
      value width scaledB = factor.val * value width b ∧
      2 ^ (width - 1) ≤ (scaledB.getLastD 0).val ∧
      digit? width a b = (normalizedDigit? width scaledA scaledB).mapError .error := by
  intro factor
  have hwidth : width ≤ 126 := width_le_of_fits hfit
  have hlast : 0 < (b.getLastD 0).val := Nat.pos_of_ne_zero fun h0 => hleading (Scalar.ext_val h0)
  obtain ⟨digit, hdigit, hval⟩ := digit?_eq hpos hwidth ha hb hlength hlast hlt
  obtain ⟨scaledA, scaledB, hscaled⟩ :=
    (scales_intDiv hpos hwidth hb hlast).exists_scaled hwidth ha hb hlength hlt
  have hdigitlt : digit.val < pow2 width := by
    rw [hval, Nat.div_lt_iff_lt_mul (value_pos_of_getLastD hb hlast), Nat.mul_comm]
    exact hlt
  have hhalf : pow2 (width - 1) ≤ (scaledB.getLastD 0).val := by
    have hdouble := pow2_succ (width - 1)
    have htwice := hscaled.half
    rw [Nat.sub_add_cancel hpos] at hdouble
    omega
  exact ⟨⟨digit, hdigit, hval, hdigitlt⟩, hscaled.top_eq_zero, scaledA, scaledB,
    hscaled.dividend_eq, hscaled.length_dividend.trans hlength, hscaled.value_dividend,
    hscaled.divisor_eq, hscaled.length_divisor, hscaled.value_divisor, hhalf,
    digit?_of_scaled hwidth hb hlength hlast hscaled⟩

/-- Scaled by 85, these operands give an estimate that is two too large. -/
theorem digit?_exact_sample :
    (∃ digit, digit? 8 ([0, 88, 1].map Scalar.ofNat) ([3, 2].map Scalar.ofNat) = .ok digit ∧
      digit.val = 88064 / 515) ∧
    (estimate 8 ([0, 56, 114].map Scalar.ofNat) ([255, 170].map Scalar.ofNat)).val =
      88064 / 515 + 2 := by
  obtain ⟨⟨digit, hdigit, hval, _⟩, _⟩ := digit?_exact 8 ([0, 88, 1].map Scalar.ofNat)
    ([3, 2].map Scalar.ofNat) (by decide) (by decide) (by decide) (by decide) rfl (by decide)
    (by decide)
  exact ⟨⟨digit, hdigit, hval⟩, by decide⟩

end Limbs

end RsaCircuit
