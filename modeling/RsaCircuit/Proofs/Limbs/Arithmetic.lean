import Mathlib.Data.Nat.ModEq
import RsaCircuit.Limbs.Arithmetic
import RsaCircuit.Proofs.Limbs.Value
set_option autoImplicit false

/-!
# Exactness of sum, multiple, difference and order

Each operation on limbs in range agrees with the operation on their values, as long as the scalars in
between do not wrap.  For columns the invariant is that the carry stays at most `bound` if every
column is at most `bound + 1` times the largest digit; a multiple by `factor` has
`bound = factor - 1`.  For differences the invariant is one borrow.
-/

namespace RsaCircuit

namespace Limbs

variable {width : Nat}

/-! ## Columns -/

/-- Every column is at most `bound + 1` times the largest digit. -/
def ColumnsFit (width bound : Nat) (columns : List Scalar) : Prop :=
  ∀ column ∈ columns, column.val + (bound + 1) ≤ (bound + 1) * pow2 width

/-- The digit and the carry of one column. -/
theorem propagate_column (hwidth : width ≤ 253) {bound : Nat}
    (hfit : (bound + 1) * pow2 width ≤ fieldOrder) {column carry : Scalar}
    (hcolumn : column.val + (bound + 1) ≤ (bound + 1) * pow2 width) (hcarry : carry.val ≤ bound) :
    ((column + carry).intMod (Scalar.twoPow width)).val = (column.val + carry.val) % pow2 width ∧
      ((column + carry).intDiv (Scalar.twoPow width)).val = (column.val + carry.val) / pow2 width ∧
      (column.val + carry.val) / pow2 width ≤ bound := by
  have hsum : (column + carry).val = column.val + carry.val := by
    rw [Scalar.val_add, Nat.mod_eq_of_lt (by omega)]
  refine ⟨?_, ?_, ?_⟩
  · rw [Scalar.val_intMod_twoPow hwidth, hsum]
  · rw [Scalar.val_intDiv_twoPow hwidth, hsum]
  · rw [← Nat.lt_succ_iff, Nat.div_lt_iff_lt_mul (pow2_pos width)]
    exact Nat.lt_of_lt_of_le (by omega) hcolumn

theorem value_propagate (hwidth : width ≤ 253) {bound : Nat}
    (hfit : (bound + 1) * pow2 width ≤ fieldOrder) {columns : List Scalar}
    (hcolumns : ColumnsFit width bound columns) {carry : Scalar} (hcarry : carry.val ≤ bound) :
    value width (propagate (Scalar.twoPow width) carry columns) =
      carry.val + value width columns := by
  induction columns generalizing carry with
  | nil => rfl
  | cons column columns ih =>
    obtain ⟨hmod, hdiv, hle⟩ :=
      propagate_column hwidth hfit (hcolumns column List.mem_cons_self) hcarry
    have hrest := ih (fun c hc => hcolumns c (List.mem_cons_of_mem column hc)) (hdiv ▸ hle)
    rw [propagate, value_cons, hrest, hmod, hdiv, value_cons, Nat.mul_add, ← Nat.add_assoc,
      Nat.mod_add_div]
    omega

/-- All digits but the last are in range, and the last is a carry. -/
theorem propagate_digits (hwidth : width ≤ 253) {bound : Nat}
    (hfit : (bound + 1) * pow2 width ≤ fieldOrder) {columns : List Scalar}
    (hcolumns : ColumnsFit width bound columns) {carry : Scalar} (hcarry : carry.val ≤ bound) :
    ∃ low top, propagate (Scalar.twoPow width) carry columns = low ++ [top] ∧
      low.length = columns.length ∧ InRange width low ∧ top.val ≤ bound := by
  induction columns generalizing carry with
  | nil => exact ⟨[], carry, rfl, rfl, inRange_nil width, hcarry⟩
  | cons column columns ih =>
    obtain ⟨hmod, hdiv, hle⟩ :=
      propagate_column hwidth hfit (hcolumns column List.mem_cons_self) hcarry
    obtain ⟨low, top, heq, hlength, hrange, htop⟩ :=
      ih (fun c hc => hcolumns c (List.mem_cons_of_mem column hc)) (hdiv ▸ hle)
    refine ⟨(column + carry).intMod (Scalar.twoPow width) :: low, top, ?_, ?_, ?_, htop⟩
    · rw [propagate, heq, List.cons_append]
    · rw [List.length_cons, List.length_cons, hlength]
    · refine (inRange_cons width _ _).2 ⟨?_, hrange⟩
      rw [hmod]
      exact Nat.mod_lt _ (pow2_pos width)

/-! ## Multiple -/

section Scale

variable {factor : Scalar} {b : Limbs}

theorem val_factor_mul (hfit : factor.val * pow2 width ≤ fieldOrder)
    {x : Scalar} (hx : x.val < pow2 width) : (factor * x).val = factor.val * x.val := by
  have hlt : factor.val * x.val < fieldOrder := by
    rcases Nat.eq_zero_or_pos factor.val with h0 | hpos
    · rw [h0, Nat.zero_mul]
      exact fieldOrder_pos
    · exact Nat.lt_of_lt_of_le (Nat.mul_lt_mul_of_pos_left hx hpos) hfit
  rw [Scalar.val_mul, Nat.mod_eq_of_lt hlt]

theorem value_map_mul (hfit : factor.val * pow2 width ≤ fieldOrder)
    (hb : InRange width b) : value width (b.map (factor * ·)) = factor.val * value width b := by
  induction b with
  | nil => rfl
  | cons x xs ih =>
    obtain ⟨hx, hxs⟩ := (inRange_cons width x xs).1 hb
    rw [List.map_cons, value_cons, value_cons, ih hxs, val_factor_mul hfit hx, Nat.mul_add,
      Nat.mul_left_comm]

theorem columnsFit_map_mul (hfit : factor.val * pow2 width ≤ fieldOrder)
    (hb : InRange width b) : ColumnsFit width (factor.val - 1) (b.map (factor * ·)) := by
  intro column hcolumn
  obtain ⟨x, hx, rfl⟩ := List.mem_map.1 hcolumn
  rw [val_factor_mul hfit (hb x hx)]
  rcases Nat.eq_zero_or_pos factor.val with h0 | hpos
  · rw [h0]
    have := pow2_pos width
    omega
  · have hle : factor.val * (x.val + 1) ≤ factor.val * pow2 width :=
      Nat.mul_le_mul_left _ (hb x hx)
    rw [Nat.sub_add_cancel hpos]
    rw [Nat.mul_add, Nat.mul_one] at hle
    exact hle

theorem bound_fits (hwidth : width ≤ 253) (hfit : factor.val * pow2 width ≤ fieldOrder) :
    (factor.val - 1 + 1) * pow2 width ≤ fieldOrder := by
  rcases Nat.eq_zero_or_pos factor.val with h0 | hpos
  · rw [h0, Nat.zero_sub, Nat.zero_add, Nat.one_mul]
    exact Nat.le_of_lt (pow2_lt_fieldOrder hwidth)
  · rw [Nat.sub_add_cancel hpos]
    exact hfit

theorem value_scale (hwidth : width ≤ 253) (hfit : factor.val * pow2 width ≤ fieldOrder)
    (hb : InRange width b) : value width (scale width factor b) = factor.val * value width b := by
  rw [scale, value_propagate hwidth (bound_fits hwidth hfit) (columnsFit_map_mul hfit hb)
    (Nat.zero_le _), value_map_mul hfit hb, Scalar.val_zero, Nat.zero_add]

/-- All digits of a multiple but the last are in range, and the last is below the factor. -/
theorem scale_digits (hwidth : width ≤ 253) (hfit : factor.val * pow2 width ≤ fieldOrder)
    (hb : InRange width b) :
    ∃ low top, scale width factor b = low ++ [top] ∧ low.length = b.length ∧
      InRange width low ∧ top.val ≤ factor.val - 1 := by
  have hzero : (0 : Scalar).val ≤ factor.val - 1 := Nat.zero_le _
  obtain ⟨low, top, heq, hlength, hrange, htop⟩ := propagate_digits hwidth
    (bound_fits hwidth hfit) (columnsFit_map_mul hfit hb) hzero
  exact ⟨low, top, heq, hlength.trans (List.length_map _), hrange, htop⟩

/-- The last limb of a multiple is the part of the product above the limbs. -/
theorem val_last_scale (hwidth : width ≤ 253) (hfit : factor.val * pow2 width ≤ fieldOrder)
    (hb : InRange width b) :
    ((scale width factor b).getLastD 0).val =
      factor.val * value width b / pow2 (width * b.length) := by
  obtain ⟨low, top, heq, hlength, hlow, _⟩ := scale_digits hwidth hfit hb
  have hlt := value_lt width low hlow
  rw [← value_scale hwidth hfit hb, heq, List.getLastD_concat, value_append, ← hlength,
    Nat.add_mul_div_left _ _ (pow2_pos _), Nat.div_eq_of_lt hlt, Nat.zero_add, value_cons,
    value_nil, Nat.mul_zero, Nat.add_zero]

theorem inRange_scale (hwidth : width ≤ 253) (hfit : factor.val * pow2 width ≤ fieldOrder)
    (hb : InRange width b) (hfactor : factor.val ≤ pow2 width) :
    InRange width (scale width factor b) := by
  obtain ⟨low, top, heq, _, hlow, htop⟩ := scale_digits hwidth hfit hb
  rw [heq]
  refine (inRange_append _ _).2 ⟨hlow, ?_⟩
  intro x hx
  rw [List.mem_singleton.1 hx]
  have := pow2_pos width
  omega

end Scale

/-! ## Difference -/

/-- One limb of a difference: the digit in range and the borrow that repays it. -/
theorem subBorrow_limb (hwidth : width ≤ 252) {x y : Scalar} (hx : x.val < pow2 width)
    (hy : y.val < pow2 width) (borrow : Bool) :
    let taken := y + Scalar.ofBool borrow
    let short := x.signedCompare taken == .lt
    let digit := if short then Scalar.twoPow width + x - taken else x - taken
    digit.val < pow2 width ∧
      digit.val + (y.val + borrow.toNat) = x.val + pow2 width * short.toNat := by
  intro taken short digit
  have hfield := pow2_le_maxMagnitude hwidth
  have hp := fieldOrder_eq
  have hb : (Scalar.ofBool borrow).val = borrow.toNat := by cases borrow <;> rfl
  have hble : borrow.toNat ≤ 1 := Bool.toNat_le borrow
  have htaken : taken.val = y.val + borrow.toNat := by
    rw [Scalar.val_add, hb, Nat.mod_eq_of_lt (by omega)]
  have hbase : (Scalar.twoPow width).val = pow2 width :=
    Scalar.val_twoPow (Nat.le_succ_of_le hwidth)
  have hcompare : x.signedCompare taken = Ord.compare x.val taken.val :=
    Scalar.signedCompare_of_le (by omega) (by omega)
  by_cases hlt : x.val < taken.val
  · have hshort : short = true := by
      change (x.signedCompare taken == .lt) = true
      rw [hcompare, compare_lt_iff_lt.2 hlt]
      rfl
    have hdigit : digit.val = pow2 width + x.val - taken.val := by
      have hsum : (Scalar.twoPow width + x).val = pow2 width + x.val := by
        rw [Scalar.val_add, hbase, Nat.mod_eq_of_lt (by omega)]
      change (if short then Scalar.twoPow width + x - taken else x - taken).val = _
      rw [if_pos hshort, Scalar.val_sub_of_le (by omega), hsum]
    rw [hdigit, hshort, Bool.toNat_true]
    omega
  · have hshort : short = false := by
      change (x.signedCompare taken == .lt) = false
      rw [hcompare, beq_eq_false_iff_ne, Ne, compare_lt_iff_lt]
      exact hlt
    have hdigit : digit.val = x.val - taken.val := by
      change (if short then Scalar.twoPow width + x - taken else x - taken).val = _
      rw [if_neg (by rw [hshort]; exact Bool.false_ne_true), Scalar.val_sub_of_le (by omega)]
    rw [hdigit, hshort, Bool.toNat_false]
    omega

theorem inRange_subBorrow (hwidth : width ≤ 252) {a b : Limbs} (ha : InRange width a)
    (hb : InRange width b) (borrow : Bool) :
    InRange width (subBorrow (Scalar.twoPow width) borrow a b) := by
  induction a generalizing b borrow with
  | nil => exact inRange_nil width
  | cons x xs ih =>
    obtain ⟨hx, hxs⟩ := (inRange_cons width x xs).1 ha
    exact (inRange_cons width _ _).2
      ⟨(subBorrow_limb hwidth hx hb.headD borrow).1, ih hxs hb.tail _⟩

/-- Subtraction repays what it takes, up to the borrow out of the last limb. -/
theorem value_subBorrow (hwidth : width ≤ 252) {a b : Limbs} (ha : InRange width a)
    (hb : InRange width b) (borrow : Bool) :
    value width (subBorrow (Scalar.twoPow width) borrow a b) + (value width b + borrow.toNat) ≡
      value width a [MOD pow2 (width * a.length)] := by
  induction a generalizing b borrow with
  | nil => rw [List.length_nil, Nat.mul_zero, pow2_zero]; exact Nat.modEq_one
  | cons x xs ih =>
    obtain ⟨hx, hxs⟩ := (inRange_cons width x xs).1 ha
    obtain ⟨_, hlimb⟩ := subBorrow_limb hwidth hx hb.headD borrow
    have hrest := ih hxs hb.tail (x.signedCompare (b.headD 0 + Scalar.ofBool borrow) == .lt)
    have hscaled := (hrest.mul_left' (pow2 width)).add_left x.val
    rw [← pow2_mul_succ] at hscaled
    rw [subBorrow, value_cons, value_cons, List.length_cons, ← value_headD_tail b]
    refine Eq.trans (congrArg (· % pow2 (width * (xs.length + 1))) ?_) hscaled
    rw [Nat.mul_add, Nat.mul_add]
    omega

theorem inRange_sub (hwidth : width ≤ 252) {a b : Limbs} (ha : InRange width a)
    (hb : InRange width b) : InRange width (sub width a b) := inRange_subBorrow hwidth ha hb false

/-- The difference is exact if it is not negative. -/
theorem value_sub (hwidth : width ≤ 252) {a b : Limbs} (ha : InRange width a)
    (hb : InRange width b) (hle : value width b ≤ value width a) :
    value width (sub width a b) = value width a - value width b := by
  have hmod := value_subBorrow hwidth ha hb false
  have hlta := value_lt width a ha
  have hlt : value width (sub width a b) < pow2 (width * a.length) := by
    have := value_lt width _ (inRange_sub hwidth ha hb)
    rwa [length_sub] at this
  rw [Bool.toNat_false, Nat.add_zero] at hmod
  have hcancel : value width (sub width a b) ≡ value width a - value width b
      [MOD pow2 (width * a.length)] := by
    refine Nat.ModEq.add_right_cancel' (value width b) ?_
    rw [Nat.sub_add_cancel hle]
    exact hmod
  exact hcancel.eq_of_lt_of_lt hlt (by omega)

/-! ## Order -/

/-- Digits decide only where the rest is equal, as long as no two of them are a base apart. -/
theorem compare_signed_digit {base x y : Int} (hlt : x - y < base) (hgt : y - x < base) (v w : Int) :
    Ord.compare (x + base * v) (y + base * w) = (Ord.compare v w).then (Ord.compare x y) := by
  have hbase : 0 ≤ base := by omega
  rcases lt_trichotomy v w with h | h | h
  · have hmul : base * (v + 1) ≤ base * w := mul_le_mul_of_nonneg_left h hbase
    rw [mul_add, mul_one] at hmul
    rw [compare_lt_iff_lt.2 h, compare_lt_iff_lt.2 (by omega)]
    rfl
  · subst h
    rw [compare_eq_iff_eq.2 (rfl : v = v)]
    change _ = Ord.compare x y
    rcases lt_trichotomy x y with h | h | h
    · rw [compare_lt_iff_lt.2 h, compare_lt_iff_lt.2 (by omega)]
    · rw [h, compare_eq_iff_eq.2 rfl, compare_eq_iff_eq.2 rfl]
    · rw [compare_gt_iff_gt.2 h, compare_gt_iff_gt.2 (by omega)]
  · have hmul : base * (w + 1) ≤ base * v := mul_le_mul_of_nonneg_left h hbase
    rw [mul_add, mul_one] at hmul
    rw [compare_gt_iff_gt.2 h, compare_gt_iff_gt.2 (by omega)]
    rfl

theorem compare_digit {base x y : Nat} (hx : x < base) (hy : y < base) (v w : Nat) :
    Ord.compare (x + base * v) (y + base * w) = (Ord.compare v w).then (Ord.compare x y) := by
  have hlt : (x : Int) - y < base := by omega
  have hgt : (y : Int) - x < base := by omega
  have hint := compare_signed_digit hlt hgt v w
  rwa [← Nat.cast_mul, ← Nat.cast_mul, ← Nat.cast_add, ← Nat.cast_add,
    Scalar.compare_nat_eq_int, Scalar.compare_nat_eq_int, Scalar.compare_nat_eq_int] at hint

/-- Pairs of aligned limbs compare as the numbers they are the digits of. -/
theorem foldr_compare (hwidth : width ≤ 252) (pairs : List (Scalar × Scalar))
    (hpairs : ∀ pair ∈ pairs, pair.1.val < pow2 width ∧ pair.2.val < pow2 width) :
    pairs.foldr (fun (x, y) above => above.then (x.signedCompare y)) .eq =
      Ord.compare (value width (pairs.map Prod.fst)) (value width (pairs.map Prod.snd)) := by
  have hle := pow2_le_maxMagnitude hwidth
  induction pairs with
  | nil => rfl
  | cons pair pairs ih =>
    obtain ⟨hx, hy⟩ := hpairs pair List.mem_cons_self
    rw [List.foldr_cons, List.map_cons, List.map_cons, value_cons, value_cons, compare_digit hx hy,
      ← ih fun p hp => hpairs p (List.mem_cons_of_mem pair hp),
      ← Scalar.signedCompare_of_le (by omega) (by omega)]

theorem value_map_fst_align (a b : Limbs) :
    value width ((align a b).map Prod.fst) = value width a := by
  induction a generalizing b with
  | nil =>
    have hfun : (Prod.fst ∘ fun y : Scalar => ((0 : Scalar), y)) = fun _ => 0 := rfl
    rw [align, List.map_map, hfun, List.map_const', value_replicate_zero, value_nil]
  | cons x xs ih => rw [align, List.map_cons, value_cons, ih, value_cons]

theorem value_map_snd_align (a b : Limbs) :
    value width ((align a b).map Prod.snd) = value width b := by
  induction a generalizing b with
  | nil =>
    have hfun : (Prod.snd ∘ fun y : Scalar => ((0 : Scalar), y)) = id := rfl
    rw [align, List.map_map, hfun, List.map_id]
  | cons x xs ih => rw [align, List.map_cons, value_cons, ih, value_headD_tail]

theorem inRange_align {a b : Limbs} (ha : InRange width a) (hb : InRange width b) :
    ∀ pair ∈ align a b, pair.1.val < pow2 width ∧ pair.2.val < pow2 width := by
  induction a generalizing b with
  | nil =>
    intro pair hpair
    obtain ⟨y, hy, rfl⟩ := List.mem_map.1 hpair
    exact ⟨pow2_pos width, hb y hy⟩
  | cons x xs ih =>
    obtain ⟨hx, hxs⟩ := (inRange_cons width x xs).1 ha
    intro pair hpair
    rcases List.mem_cons.1 hpair with rfl | hpair
    · exact ⟨hx, hb.headD⟩
    · exact ih hxs hb.tail pair hpair

/-- Limbs in range compare as their values. -/
theorem compare_eq_compare_value (hwidth : width ≤ 252) {a b : Limbs} (ha : InRange width a)
    (hb : InRange width b) : compare a b = Ord.compare (value width a) (value width b) := by
  rw [compare, foldr_compare hwidth _ (inRange_align ha hb), value_map_fst_align,
    value_map_snd_align]

theorem exceeds_iff (hwidth : width ≤ 252) {a b : Limbs} (ha : InRange width a)
    (hb : InRange width b) : exceeds a b = true ↔ value width b < value width a := by
  rw [exceeds, compare_eq_compare_value hwidth ha hb, beq_iff_eq, compare_gt_iff_gt]

end Limbs

end RsaCircuit
