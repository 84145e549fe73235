import RsaCircuit.Proofs.Limbs.Arithmetic
set_option autoImplicit false

/-!
# Multiples of limbs in range

A multiple grows by one column at a time: the last limb of the multiple so far is the carry into the
next column, and the column leaves a digit and the next carry (`scale_take_succ`).  So what holds of
the last limb of every multiple holds of every carry.  The last limb is the part of the product above
the limbs, hence below the factor; a column is then at most `factor * 2 ^ width - 1`, and the field
holds it as soon as it holds `factor * 2 ^ width`.  The largest limbs show that no smaller bound
on the carry would do (`exists_largest_carry`).
-/

namespace RsaCircuit

namespace Limbs

variable {width : Nat} {factor : Scalar} {b : Limbs}

/-! ## One column after another -/

/-- The carry into the column at a position: what the multiple of the limbs below it leaves over. -/
def carryInto (width : Nat) (factor : Scalar) (b : Limbs) (position : Nat) : Scalar :=
  (scale width factor (b.take position)).getLastD 0

theorem propagate_ne_nil (base carry : Scalar) (columns : List Scalar) :
    propagate base carry columns ≠ [] := by
  rw [← List.length_pos_iff, length_propagate]
  exact Nat.succ_pos _

/-- A further column turns the carry out of the columns below into a digit and a carry of its own. -/
theorem propagate_concat (base carry : Scalar) (columns : List Scalar) (column : Scalar) :
    propagate base carry (columns ++ [column]) =
      (propagate base carry columns).dropLast ++
        [(column + (propagate base carry columns).getLastD 0).intMod base,
          (column + (propagate base carry columns).getLastD 0).intDiv base] := by
  induction columns generalizing carry with
  | nil => rfl
  | cons first columns ih =>
    have hne := propagate_ne_nil base ((first + carry).intDiv base) columns
    rw [List.cons_append, propagate, propagate, ih, List.dropLast_cons_of_ne_nil hne,
      List.cons_append, List.getLastD_eq_getLast?, List.getLastD_eq_getLast?,
      List.getLast?_cons_of_ne_nil hne]

theorem scale_take_succ (width : Nat) (factor : Scalar) (b : Limbs) {i : Nat} (hi : i < b.length) :
    scale width factor (b.take (i + 1)) =
      (scale width factor (b.take i)).dropLast ++
        [(factor * b[i] + carryInto width factor b i).intMod (Scalar.twoPow width),
          (factor * b[i] + carryInto width factor b i).intDiv (Scalar.twoPow width)] := by
  rw [List.take_succ_eq_append_getElem hi, scale, List.map_append, List.map_singleton,
    propagate_concat]
  rfl

/-! ## The carry -/

theorem inRange_take_scale (hwidth : width ≤ 253) (hfit : factor.val * pow2 width ≤ fieldOrder)
    (hb : InRange width b) : InRange width ((scale width factor b).take b.length) := by
  obtain ⟨low, top, heq, hlength, hlow, _⟩ := scale_digits hwidth hfit hb
  rw [heq, List.take_left' hlength]
  exact hlow

theorem val_last_scale_le (hwidth : width ≤ 253) (hfit : factor.val * pow2 width ≤ fieldOrder)
    (hb : InRange width b) : ((scale width factor b).getLastD 0).val ≤ factor.val - 1 := by
  obtain ⟨low, top, heq, _, _, htop⟩ := scale_digits hwidth hfit hb
  rw [heq, List.getLastD_concat]
  exact htop

/-- A column and the carry into it do not wrap. -/
theorem column_lt_fieldOrder (hwidth : width ≤ 253) (hfit : factor.val * pow2 width ≤ fieldOrder)
    (hb : InRange width b) {i : Nat} (hi : i < b.length) :
    (carryInto width factor b i).val + factor.val * b[i].val < fieldOrder := by
  have hmem : b[i] ∈ b := List.getElem_mem hi
  have hcarry : (carryInto width factor b i).val ≤ factor.val - 1 :=
    val_last_scale_le hwidth hfit (hb.take i)
  have hcolumn := columnsFit_map_mul hfit hb (factor * b[i]) (List.mem_map_of_mem hmem)
  rw [val_factor_mul hfit (hb _ hmem)] at hcolumn
  have hbound := bound_fits hwidth hfit
  omega

/-- The largest limbs, enough of them to hold the factor, carry as much as limbs in range can. -/
theorem exists_largest_carry (hpos : 1 ≤ width) (hwidth : width ≤ 253)
    (hfit : factor.val * pow2 width ≤ fieldOrder) (hfactor : factor ≠ 0) :
    ∃ b, InRange width b ∧ ((scale width factor b).getLastD 0).val = factor.val - 1 := by
  let count := bitLength factor.val
  let bound := pow2 (width * count)
  have hone : 0 < factor.val := Nat.pos_of_ne_zero fun h0 => hfactor (Scalar.ext_val h0)
  have hle : factor.val ≤ bound :=
    (Nat.le_of_lt (lt_pow2_bitLength factor.val)).trans
      (pow2_le_pow2 (Nat.le_mul_of_pos_left count hpos))
  have hrange := inRange_split hwidth count (bound - 1)
  have hvalue : value width (split width count (bound - 1)) = bound - 1 := by
    rw [value_split hwidth]
    exact Nat.mod_eq_of_lt (Nat.sub_lt (pow2_pos _) Nat.one_pos)
  refine ⟨split width count (bound - 1), hrange, ?_⟩
  rw [val_last_scale hwidth hfit hrange, hvalue, length_split]
  refine Nat.div_eq_of_lt_le ?_ ?_
  · rw [Nat.sub_mul, Nat.mul_sub, Nat.one_mul, Nat.mul_one]
    exact Nat.sub_le_sub_left hle _
  · rw [Nat.sub_add_cancel hone]
    exact Nat.mul_lt_mul_of_pos_left (Nat.sub_lt (pow2_pos _) Nat.one_pos) hone

/-- If the field holds `factor * 2 ^ width`, the multiple of limbs in range is exact, its last limb is
below the factor, and no column reaches the field order.  The bound on the last limb is met. -/
theorem scales_exactly (width : Nat) (factor : Scalar) (hpos : 1 ≤ width) (hwidth : width ≤ 253)
    (hfit : factor.val * pow2 width ≤ fieldOrder) :
    (∀ b : Limbs, InRange width b →
      let multiple := scale width factor b
      let top := multiple.getLastD 0
      (multiple.length = b.length + 1 ∧ InRange width (multiple.take b.length) ∧
        (factor = 0 → top = 0) ∧ (factor ≠ 0 → top.val ≤ factor.val - 1)) ∧
      value width multiple = factor.val * value width b ∧
      ∀ (i : Nat) (hi : i < b.length),
        let carry := carryInto width factor b i
        let column := factor * b[i] + carry
        scale width factor (b.take (i + 1)) = (scale width factor (b.take i)).dropLast ++
            [column.intMod (Scalar.twoPow width), column.intDiv (Scalar.twoPow width)] ∧
          carry.val + factor.val * b[i].val < fieldOrder) ∧
    (factor ≠ 0 →
      ∃ b, InRange width b ∧ ((scale width factor b).getLastD 0).val = factor.val - 1) := by
  refine ⟨fun b hb => ?_, exists_largest_carry hpos hwidth hfit⟩
  intro multiple top
  have htop : top.val ≤ factor.val - 1 := val_last_scale_le hwidth hfit hb
  refine ⟨⟨length_scale width factor b, inRange_take_scale hwidth hfit hb, ?_, fun _ => htop⟩,
    value_scale hwidth hfit hb, fun i hi => ?_⟩
  · rintro rfl
    exact Scalar.ext_val (Nat.le_zero.1 htop)
  · exact ⟨scale_take_succ width factor b hi, column_lt_fieldOrder hwidth hfit hb hi⟩

/-- Three is the largest factor at 252 bits: the second column of the largest limbs is the largest
multiple of the base below the field order, less one. -/
theorem scales_exactly_sample :
    let largest := [2 ^ 252 - 1, 2 ^ 252 - 1].map Scalar.ofNat
    let multiple := scale 252 (Scalar.ofNat 3) largest
    (multiple.length = 3 ∧ InRange 252 (multiple.take 2) ∧ (multiple.getLastD 0).val ≤ 2) ∧
      value 252 multiple = 3 * (2 ^ 504 - 1) ∧
      (carryInto 252 (Scalar.ofNat 3) largest 1).val + 3 * (2 ^ 252 - 1) < fieldOrder ∧
      (∃ b, InRange 252 b ∧ ((scale 252 (Scalar.ofNat 3) b).getLastD 0).val = 2) ∧
      (scale 252 0 largest).getLastD 0 = 0 := by
  intro largest multiple
  have hlargest : InRange 252 largest := by decide +kernel
  obtain ⟨hall, htight⟩ := scales_exactly 252 (Scalar.ofNat 3) (by decide) (by decide)
    (by decide +kernel)
  obtain ⟨⟨hlength, hrange, _, htop⟩, hvalue, hcolumns⟩ := hall largest hlargest
  obtain ⟨⟨_, _, hzero, _⟩, _⟩ := (scales_exactly 252 0 (by decide) (by decide)
    (by decide +kernel)).1 largest hlargest
  refine ⟨⟨hlength, hrange, htop (by decide)⟩, hvalue.trans (by decide +kernel),
    (hcolumns 1 (by decide)).2, htight (by decide), hzero rfl⟩

end Limbs

end RsaCircuit
