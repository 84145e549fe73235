import Mathlib.Algebra.BigOperators.Group.Finset.Basic
import Mathlib.Algebra.BigOperators.Intervals
import Mathlib.Algebra.Order.BigOperators.Group.Finset
import Mathlib.Data.Int.ModEq
import RsaCircuit.Registers
import RsaCircuit.Proofs.Limbs.Value
import RsaCircuit.Proofs.Polynomial.Coefficients
set_option autoImplicit false

/-!
# The integer that registers stand for

`Registers.total` is the sum of the signed registers at their positions.  Cutting a register into
pieces, overlaying the pieces and settling the sums all keep this integer, the last up to the carry
that is dropped.  None of the sums wraps as long as the pieces on one position add up to at most
`bound` and the carries stay at most `carry`, which `SettleBounds` expresses.
-/

namespace RsaCircuit

namespace Registers

variable {width : Nat}

/-- The integer that registers stand for as signed digits to base `2 ^ width`. -/
def total (width : Nat) : Registers → Int
  | [] => 0
  | register :: registers => register.toInt + pow2 width * total width registers

@[simp] theorem total_nil : total width [] = 0 := rfl

@[simp] theorem total_cons (register : Scalar) (registers : Registers) :
    total width (register :: registers) = register.toInt + pow2 width * total width registers := rfl

theorem total_of_inRange (hwidth : width ≤ 252) {xs : Limbs} (h : Limbs.InRange width xs) :
    total width xs = Limbs.value width xs := by
  induction xs with
  | nil => rfl
  | cons x xs ih =>
    obtain ⟨hx, hxs⟩ := (Limbs.inRange_cons width x xs).1 h
    have hle := pow2_le_maxMagnitude hwidth
    rw [total_cons, ih hxs, Scalar.toInt_of_le (by omega), Limbs.value_cons, Nat.cast_add,
      Nat.cast_mul]

theorem total_map_neg (registers : Registers) :
    total width (registers.map fun r => -r) = -total width registers := by
  induction registers with
  | nil => rfl
  | cons register registers ih =>
    rw [List.map_cons, total_cons, ih, Scalar.toInt_neg, total_cons]
    ring

theorem getD_coefficients_add (p q : Registers) (i : Nat) :
    (Coefficients.add p q).getD i 0 = p.getD i 0 + q.getD i 0 := by
  rw [← coeff_ofCoefficients, Coefficients.ofCoefficients_add, Polynomial.coeff_add,
    coeff_ofCoefficients, coeff_ofCoefficients]

/-- Position by position addition adds the integers if no register wraps. -/
theorem total_add {p q : Registers}
    (h : ∀ i, ((p.getD i 0).toInt + (q.getD i 0).toInt).natAbs ≤ maxMagnitude) :
    total width (Coefficients.add p q) = total width p + total width q := by
  induction p generalizing q with
  | nil => rw [Coefficients.add, total_nil, zero_add]
  | cons c p ih =>
    cases q with
    | nil =>
      have hrest : total width (Coefficients.add p []) = total width p + total width [] := by
        refine ih ?_
        intro i
        have hi := h (i + 1)
        rwa [List.getD_cons_succ, List.getD_nil] at hi
      rw [Coefficients.add, total_cons, List.tail_nil, hrest, List.headD_nil, total_cons, add_zero,
        total_nil, add_zero, add_zero]
    | cons d q =>
      have hhead := h 0
      rw [List.getD_cons_zero, List.getD_cons_zero] at hhead
      have hrest := @ih q fun i => h (i + 1)
      rw [Coefficients.add, total_cons, List.tail_cons, hrest, List.headD_cons,
        Scalar.toInt_add hhead, total_cons, total_cons]
      ring

/-! ## Cutting a register -/

theorem map_range_digits (hwidth : width ≤ 253) (count : Nat) {m : Nat} (hm : m < fieldOrder) :
    ((List.range count).map fun j =>
      (Scalar.ofNat (m >>> (width * j))).intMod (Scalar.twoPow width)) =
      Limbs.split width count m := by
  induction count generalizing m with
  | zero => rfl
  | succ count ih =>
    have hdigit : (Scalar.ofNat (m >>> (width * 0))).intMod (Scalar.twoPow width) =
        Scalar.ofNat (m % pow2 width) := by
      have hlt := (Nat.mod_lt m (pow2_pos width)).trans (pow2_lt_fieldOrder hwidth)
      apply Scalar.ext_val
      rw [Nat.mul_zero, Nat.shiftRight_zero, Scalar.val_intMod_twoPow hwidth, Scalar.val_ofNat,
        Nat.mod_eq_of_lt hm, Scalar.val_ofNat, Nat.mod_eq_of_lt hlt]
    have hshift : ∀ j, m >>> (width * (j + 1)) = (m / pow2 width) >>> (width * j) := by
      intro j
      rw [Nat.mul_add, Nat.mul_one, Nat.add_comm, Nat.shiftRight_add, Nat.shiftRight_eq_div_pow m]
      rfl
    rw [List.range_succ_eq_map, List.map_cons, hdigit, List.map_map, Limbs.split,
      ← ih ((Nat.div_le_self _ _).trans_lt hm)]
    refine congrArg _ (List.map_congr_left fun j _ => ?_)
    rw [Function.comp_apply, Nat.succ_eq_add_one, hshift]

/-- The pieces are the digits of the magnitude, each with the sign of the register. -/
theorem pieces_eq (hwidth : width ≤ 253) (count : Nat) (register : Scalar) :
    pieces width count register =
      (Limbs.split width count register.toInt.natAbs).map fun digit =>
        if register.isNegative then -digit else digit := by
  have hlt : register.toInt.natAbs < fieldOrder := by
    rw [← Scalar.val_magnitude]
    exact register.magnitude.isLt
  rw [← map_range_digits hwidth count hlt, List.map_map, pieces, Scalar.val_magnitude]
  rfl

theorem total_pieces (hwidth : width ≤ 252) {count : Nat} {register : Scalar}
    (h : register.toInt.natAbs < pow2 (width * count)) :
    total width (pieces width count register) = register.toInt := by
  have hdigits := Limbs.inRange_split (Nat.le_succ_of_le hwidth) count register.toInt.natAbs
  have hsplit : total width (Limbs.split width count register.toInt.natAbs) =
      register.toInt.natAbs := by
    rw [total_of_inRange hwidth hdigits, Limbs.value_split (Nat.le_succ_of_le hwidth),
      Nat.mod_eq_of_lt h]
  rw [pieces_eq (Nat.le_succ_of_le hwidth)]
  cases hsign : register.isNegative with
  | true =>
    have hneg := (Scalar.isNegative_iff_toInt register).1 hsign
    simp only [if_true]
    rw [total_map_neg, hsplit]
    omega
  | false =>
    have hnonneg : ¬ register.toInt < 0 := fun hlt => by
      rw [(Scalar.isNegative_iff_toInt register).2 hlt] at hsign
      cases hsign
    simp only [Bool.false_eq_true, if_false, List.map_id']
    rw [hsplit]
    omega

/-- A piece is a digit of the magnitude, up to its sign. -/
theorem natAbs_getD_pieces (hwidth : width ≤ 252) (count : Nat) (register : Scalar) (j : Nat) :
    (((pieces width count register).getD j 0).toInt).natAbs =
      ((Limbs.split width count register.toInt.natAbs).getD j 0).val := by
  have hdigits := Limbs.inRange_split (Nat.le_succ_of_le hwidth) count register.toInt.natAbs
  have hmax := pow2_le_maxMagnitude hwidth
  have hdigit := hdigits.getD j
  have htoInt : ((Limbs.split width count register.toInt.natAbs).getD j 0).toInt =
      ((Limbs.split width count register.toInt.natAbs).getD j 0).val :=
    Scalar.toInt_of_le (by omega)
  rw [pieces_eq (Nat.le_succ_of_le hwidth)]
  cases register.isNegative with
  | true =>
    have hmap : ((Limbs.split width count register.toInt.natAbs).map fun digit => -digit).getD j
        (-0) = -(Limbs.split width count register.toInt.natAbs).getD j 0 := List.getD_map _ _ _
    simp only [if_true]
    rw [neg_zero] at hmap
    rw [hmap, Scalar.toInt_neg]
    omega
  | false =>
    simp only [Bool.false_eq_true, if_false, List.map_id']
    omega

theorem natAbs_getD_pieces_lt (hwidth : width ≤ 252) (count : Nat) (register : Scalar) (j : Nat) :
    (((pieces width count register).getD j 0).toInt).natAbs < pow2 width := by
  rw [natAbs_getD_pieces hwidth]
  exact (Limbs.inRange_split (Nat.le_succ_of_le hwidth) count _).getD j

/-- A piece is at most what the register has above its position. -/
theorem natAbs_getD_pieces_le (hwidth : width ≤ 252) (count : Nat) (register : Scalar) (j : Nat) :
    (((pieces width count register).getD j 0).toInt).natAbs ≤
      register.toInt.natAbs / pow2 (width * j) := by
  have hwide := Nat.le_succ_of_le hwidth
  have hle := Limbs.getD_le_value_div (Limbs.inRange_split hwide count register.toInt.natAbs) j
  rw [Limbs.value_split hwide] at hle
  rw [natAbs_getD_pieces hwidth]
  exact hle.trans (Nat.div_le_div_right (Nat.mod_le _ _))

/-! ## Overlaying the pieces -/

theorem length_overlay (count : Nat) {rows : List (List Scalar)}
    (h : ∀ row ∈ rows, row.length = count) :
    (overlay count rows).length = rows.length + count := by
  induction rows with
  | nil => rw [overlay, List.length_replicate, List.length_nil, Nat.zero_add]
  | cons row rows ih =>
    rw [overlay, Coefficients.length_add, h row List.mem_cons_self, List.length_cons,
      ih fun r hr => h r (List.mem_cons_of_mem row hr), List.length_cons]
    omega

section Overlay

variable {rows : List (List Scalar)} {weight : Nat → Nat} {bound : Nat}

/-- The pieces at one distance from the lowest of their register are bounded together. -/
def PiecesBounded (weight : Nat → Nat) (rows : List (List Scalar)) : Prop :=
  ∀ row ∈ rows, ∀ j, ((row.getD j 0).toInt).natAbs ≤ weight j

/-- A position collects at most one piece of each distance, so no sum of pieces wraps. -/
theorem natAbs_getD_overlay_le (count : Nat) (hrows : PiecesBounded weight rows)
    (hbound : ∀ i, ∑ j ∈ Finset.range i, weight j ≤ bound) (hfits : bound ≤ maxMagnitude)
    (i : Nat) :
    (((overlay count rows).getD i 0).toInt).natAbs ≤ ∑ j ∈ Finset.range (i + 1), weight j := by
  induction rows generalizing i with
  | nil =>
    have hzero : (overlay count []).getD i 0 = 0 := by
      rw [overlay]
      rcases Nat.lt_or_ge i count with hi | hi
      · rw [List.getD_eq_getElem _ _ (by rw [List.length_replicate]; exact hi),
          List.getElem_replicate]
      · exact List.getD_eq_default _ _ (by rw [List.length_replicate]; exact hi)
    rw [hzero]
    exact Nat.zero_le _
  | cons row rows ih =>
    have hrest := ih fun r hr => hrows r (List.mem_cons_of_mem row hr)
    have hrow := hrows row List.mem_cons_self i
    have hsum := hbound (i + 1)
    rw [Finset.sum_range_succ] at hsum ⊢
    rw [overlay, getD_coefficients_add]
    cases i with
    | zero =>
      rw [List.getD_cons_zero, add_zero]
      omega
    | succ i =>
      have hi := hrest i
      rw [List.getD_cons_succ, Scalar.toInt_add (by omega)]
      omega

/-- Each row counts from its own position on. -/
theorem total_overlay_cons (count : Nat) {row : List Scalar}
    (hrows : PiecesBounded weight (row :: rows))
    (hbound : ∀ i, ∑ j ∈ Finset.range i, weight j ≤ bound) (hfits : bound ≤ maxMagnitude) :
    total width (overlay count (row :: rows)) =
      total width row + pow2 width * total width (overlay count rows) := by
  have hlower : PiecesBounded weight rows := fun r hr => hrows r (List.mem_cons_of_mem row hr)
  rw [overlay, total_add, total_cons, Scalar.toInt_zero, zero_add]
  intro i
  have hrow := hrows row List.mem_cons_self i
  have hsum := hbound (i + 1)
  rw [Finset.sum_range_succ] at hsum
  cases i with
  | zero =>
    rw [List.getD_cons_zero, Scalar.toInt_zero, add_zero]
    omega
  | succ i =>
    have hi := natAbs_getD_overlay_le count hlower hbound hfits i
    rw [List.getD_cons_succ]
    omega

theorem total_overlay_pieces (hwidth : width ≤ 252) {count : Nat} {registers : Registers}
    (hregisters : ∀ r ∈ registers, r.toInt.natAbs < pow2 (width * count))
    (hrows : PiecesBounded weight (registers.map (pieces width count)))
    (hbound : ∀ i, ∑ j ∈ Finset.range i, weight j ≤ bound) (hfits : bound ≤ maxMagnitude) :
    total width (overlay count (registers.map (pieces width count))) = total width registers := by
  induction registers with
  | nil =>
    rw [List.map_nil, overlay, total_of_inRange hwidth (Limbs.inRange_replicate_zero count),
      Limbs.value_replicate_zero, total_nil]
    rfl
  | cons register registers ih =>
    have hlower : PiecesBounded weight (registers.map (pieces width count)) :=
      fun r hr => hrows r (List.mem_cons_of_mem _ hr)
    rw [List.map_cons, total_overlay_cons count hrows hbound hfits,
      total_pieces hwidth (hregisters register List.mem_cons_self),
      ih (fun r hr => hregisters r (List.mem_cons_of_mem register hr)) hlower, total_cons]

end Overlay

/-! ## Settling -/

/-- A digit and a carry that make up a scalar. -/
structure MakesUp (base : Nat) (x digit carry : Scalar) : Prop where
  digit_lt : digit.val < base
  sum_eq : (digit.val : Int) + base * carry.toInt = x.toInt

/-- The carry is the quotient rounded toward minus infinity. -/
theorem MakesUp.carry_eq {base : Nat} {x digit carry : Scalar} (h : MakesUp base x digit carry) :
    carry.toInt = x.toInt / base := by
  have hlt := h.digit_lt
  exact ((Int.ediv_emod_unique (by omega)).2
    ⟨h.sum_eq, Int.natCast_nonneg _, Int.ofNat_lt.2 hlt⟩).1.symm

theorem floorSplit_of_nonneg (hwidth : width ≤ 252) {x : Scalar} (h : ¬ x.isNegative = true) :
    MakesUp (pow2 width) x (floorSplit (Scalar.twoPow width) x).1
      (floorSplit (Scalar.twoPow width) x).2 := by
  have htoInt : x.toInt = (x.val : Int) := if_neg h
  have hbound := Scalar.natAbs_toInt_le x
  have hlow := Scalar.val_intMod_twoPow (Nat.le_succ_of_le hwidth) x
  have hhigh := Scalar.val_intDiv_twoPow (Nat.le_succ_of_le hwidth) x
  have hle := Nat.div_le_self x.val (pow2 width)
  rw [floorSplit, if_neg h]
  dsimp only
  refine ⟨?_, ?_⟩
  · rw [hlow]
    exact Nat.mod_lt _ (pow2_pos width)
  · rw [Scalar.toInt_of_le (by omega), hlow, hhigh, htoInt]
    exact_mod_cast Nat.mod_add_div x.val (pow2 width)

/-- Here the magnitude is split, and a remainder other than zero is made up to the base. -/
theorem floorSplit_of_negative (hwidth : width ≤ 252) {x : Scalar} (h : x.isNegative = true) :
    MakesUp (pow2 width) x (floorSplit (Scalar.twoPow width) x).1
      (floorSplit (Scalar.twoPow width) x).2 := by
  have htoInt : x.toInt = -((-x).val : Int) := if_pos h
  have hbound := Scalar.natAbs_toInt_le x
  have hpos := pow2_pos width
  have hlow := Scalar.val_intMod_twoPow (Nat.le_succ_of_le hwidth) (-x)
  have hhigh := Scalar.val_intDiv_twoPow (Nat.le_succ_of_le hwidth) (-x)
  have hlt := Nat.mod_lt (-x).val hpos
  have hle := Nat.div_le_self (-x).val (pow2 width)
  have hsum : (((-x).val % pow2 width : Nat) : Int) +
      pow2 width * (((-x).val / pow2 width : Nat) : Int) = (-x).val := by
    exact_mod_cast Nat.mod_add_div (-x).val (pow2 width)
  have hcarry : (-((-x).intDiv (Scalar.twoPow width))).toInt =
      -(((-x).val / pow2 width : Nat) : Int) := by
    rw [Scalar.toInt_neg, Scalar.toInt_of_le (by omega), hhigh]
  rw [floorSplit, if_pos h]
  dsimp only
  split
  · next hzero =>
    rw [hzero, Scalar.val_zero] at hlow
    refine ⟨by rw [hzero]; exact hpos, ?_⟩
    rw [hzero, hcarry, Scalar.val_zero, mul_neg]
    omega
  · next hzero =>
    have hrest : (-x).val % pow2 width ≠ 0 := fun h0 => hzero (Scalar.ext_val (hlow.trans h0))
    have hone : (-1 : Scalar).toInt = -1 := by decide
    have hless : (-x).val / pow2 width < (-x).val := by
      have hmul := Nat.le_mul_of_pos_left ((-x).val / pow2 width) hpos
      omega
    have hdigit : (Scalar.twoPow width - (-x).intMod (Scalar.twoPow width)).val =
        pow2 width - (-x).val % pow2 width := by
      rw [Scalar.val_sub_of_le, Scalar.val_twoPow (Nat.le_succ_of_le hwidth), hlow]
      rw [Scalar.val_twoPow (Nat.le_succ_of_le hwidth), hlow]
      exact Nat.le_of_lt hlt
    have hnext : (-((-x).intDiv (Scalar.twoPow width)) - 1).toInt =
        -(((-x).val / pow2 width : Nat) : Int) + -1 := by
      have hadd := Scalar.toInt_add (x := -((-x).intDiv (Scalar.twoPow width))) (y := -1)
        (by rw [hcarry, hone]; omega)
      rw [hcarry, hone] at hadd
      rw [sub_eq_add_neg]
      exact hadd
    refine ⟨by rw [hdigit]; omega, ?_⟩
    rw [hdigit, hnext, mul_add, mul_neg, mul_neg_one]
    omega

theorem floorSplit_makesUp (hwidth : width ≤ 252) (x : Scalar) :
    MakesUp (pow2 width) x (floorSplit (Scalar.twoPow width) x).1
      (floorSplit (Scalar.twoPow width) x).2 := by
  by_cases h : x.isNegative = true
  · exact floorSplit_of_negative hwidth h
  · exact floorSplit_of_nonneg hwidth h

/-- Registers of at most `bound` settle with carries of at most `carry`. -/
structure SettleBounds (width bound carry : Nat) : Prop where
  fits : bound + carry ≤ maxMagnitude
  contracts : bound + carry ≤ carry * pow2 width

theorem natAbs_ediv_le {z : Int} {base bound : Nat} (hbase : 0 < base)
    (h : z.natAbs ≤ bound * base) : (z / base).natAbs ≤ bound := by
  have hpos : (0 : Int) < base := by omega
  have hcast : ((bound * base : Nat) : Int) = bound * base := Nat.cast_mul _ _
  have hupper : z / base ≤ bound :=
    Int.ediv_le_of_le_mul hpos (by omega)
  have hlower : -(bound : Int) ≤ z / base :=
    (Int.le_ediv_iff_mul_le hpos).2 (by rw [neg_mul]; omega)
  omega

/-- Settling keeps the integer up to the carry out of the last position, and leaves digits. -/
theorem settle_eq (hwidth : width ≤ 252) {bound bound' : Nat}
    (hsettle : SettleBounds width bound bound') {registers : Registers}
    (hregisters : ∀ r ∈ registers, r.toInt.natAbs ≤ bound) {carry : Scalar}
    (hcarry : carry.toInt.natAbs ≤ bound') :
    Limbs.InRange width (settle (Scalar.twoPow width) carry registers) ∧
      (Limbs.value width (settle (Scalar.twoPow width) carry registers) : Int) ≡
        carry.toInt + total width registers [ZMOD pow2 (width * registers.length)] := by
  have hpos := pow2_pos width
  induction registers generalizing carry with
  | nil =>
    rw [List.length_nil, Nat.mul_zero, pow2_zero]
    exact ⟨Limbs.inRange_nil width, Int.modEq_one⟩
  | cons register registers ih =>
    have hregister := hregisters register List.mem_cons_self
    have hfits := hsettle.fits
    have hcontracts := hsettle.contracts
    have hsum : (carry + register).toInt = carry.toInt + register.toInt :=
      Scalar.toInt_add (by omega)
    have hsplit := floorSplit_makesUp hwidth (carry + register)
    have hnext : (floorSplit (Scalar.twoPow width) (carry + register)).2.toInt.natAbs ≤ bound' := by
      rw [hsplit.carry_eq, hsum]
      exact natAbs_ediv_le hpos (by omega)
    obtain ⟨hrange, hvalue⟩ :=
      ih (fun r hr => hregisters r (List.mem_cons_of_mem register hr)) hnext
    have hsettled : settle (Scalar.twoPow width) carry (register :: registers) =
        (floorSplit (Scalar.twoPow width) (carry + register)).1 ::
          settle (Scalar.twoPow width) (floorSplit (Scalar.twoPow width) (carry + register)).2
            registers := rfl
    rw [hsettled]
    refine ⟨(Limbs.inRange_cons width _ _).2 ⟨hsplit.digit_lt, hrange⟩, ?_⟩
    have hscaled := (Int.ModEq.mul_left' hvalue : pow2 width * _ ≡ _ [ZMOD _]).add_left
      ((floorSplit (Scalar.twoPow width) (carry + register)).1.val : Int)
    have hmodulus : (pow2 (width * (register :: registers).length) : Int) =
        pow2 width * pow2 (width * registers.length) := by
      rw [List.length_cons, pow2_mul_succ, Nat.cast_mul]
    rw [hmodulus, Limbs.value_cons, Nat.cast_add, Nat.cast_mul, total_cons]
    refine hscaled.trans (congrArg (· % _) ?_)
    rw [mul_add, ← add_assoc, hsplit.sum_eq, hsum]
    ring

/-! ## Normalising -/

theorem length_overlay_pieces (count : Nat) (registers : Registers) :
    (overlay count (registers.map (pieces width count))).length = registers.length + count := by
  rw [length_overlay, List.length_map]
  intro row hrow
  obtain ⟨r, _, rfl⟩ := List.mem_map.1 hrow
  exact length_pieces _ _ _

theorem length_normalize {bits : Nat} (hbits : bits ≠ 0) (registers : Registers) :
    (normalize bits width registers).length = registers.length + piecesFor bits width := by
  rw [normalize, if_neg hbits]
  exact (length_settle _ _ _).trans (length_overlay_pieces _ _)

theorem normalize?_of_pos (hpos : 0 < width) (bits : Nat) (registers : Registers) :
    normalize? bits width registers = .ok (normalize bits width registers) :=
  if_neg fun h => h.2.elim (Nat.ne_of_gt hpos) (Scalar.twoPow_ne_zero width)

/-- Normalising gives digits of the integer that the registers stand for, as many as there are
registers and pieces. -/
theorem normalize_eq (hwidth : width ≤ 252) {bits bound carry : Nat} (hbits : bits ≠ 0)
    (hsettle : SettleBounds width bound carry) {weight : Nat → Nat}
    (hbound : ∀ i, ∑ j ∈ Finset.range i, weight j ≤ bound) {registers : Registers}
    (hregisters : ∀ r ∈ registers, r.toInt.natAbs < pow2 (width * piecesFor bits width))
    (hpieces : PiecesBounded weight (registers.map (pieces width (piecesFor bits width)))) :
    Limbs.InRange width (normalize bits width registers) ∧
      (Limbs.value width (normalize bits width registers) : Int) ≡ total width registers
        [ZMOD pow2 (width * (registers.length + piecesFor bits width))] := by
  have hfits : bound ≤ maxMagnitude := (Nat.le_add_right _ _).trans hsettle.fits
  have hoverlay : ∀ r ∈ overlay (piecesFor bits width)
      (registers.map (pieces width (piecesFor bits width))), r.toInt.natAbs ≤ bound := by
    intro r hr
    obtain ⟨i, hi, rfl⟩ := List.getElem_of_mem hr
    rw [← List.getD_eq_getElem _ 0 hi]
    exact (natAbs_getD_overlay_le _ hpieces hbound hfits i).trans (hbound (i + 1))
  have hcarry : (0 : Scalar).toInt.natAbs ≤ carry := by rw [Scalar.toInt_zero]; exact Nat.zero_le _
  have hsettled := settle_eq hwidth hsettle hoverlay hcarry
  rw [total_overlay_pieces hwidth hregisters hpieces hbound hfits, Scalar.toInt_zero, zero_add,
    length_overlay_pieces] at hsettled
  rw [normalize, if_neg hbits]
  exact hsettled

end Registers

end RsaCircuit
