import RsaCircuit.Component.Padding
import RsaCircuit.Proofs.Component.Bits
set_option autoImplicit false

/-!
# The run of ones in a padded message

The circuit finds out byte by byte where the run of ones ends.  The sum of the bits from a byte up is
zero iff the modulus has no bit there, so the lowest bits of the bytes of the run say which bytes the
modulus reaches, and spreading them gives an integer of ones only (`onesValue`).  The widths of the
bytes play no part in this but for the topmost one, which no one reaches.
-/

namespace RsaCircuit

/-! ## Bit lengths -/

theorem bitLength_div_pow2 (n s : Nat) : bitLength (n / pow2 s) = bitLength n - s := by
  have hiff : ∀ k, bitLength (n / pow2 s) ≤ k ↔ bitLength n - s ≤ k := by
    intro k
    rw [bitLength_le_iff, Nat.div_lt_iff_lt_mul (pow2_pos s), ← pow2_add, ← bitLength_le_iff]
    omega
  exact Nat.le_antisymm ((hiff _).2 (Nat.le_refl _)) ((hiff _).1 (Nat.le_refl _))

theorem lt_bitLength_iff (n k : Nat) : k < bitLength n ↔ pow2 k ≤ n := by
  have hle := bitLength_le_iff n k
  omega

theorem pow2_pred_bitLength_le {n : Nat} (h : n ≠ 0) : pow2 (bitLength n - 1) ≤ n := by
  have hpos : 0 < bitLength n := (lt_bitLength_iff n 0).2 (Nat.one_le_iff_ne_zero.2 h)
  exact (lt_bitLength_iff n (bitLength n - 1)).1 (by omega)

namespace Padding

open Limbs

/-! ## Ones -/

/-- The integer of the run of ones for a modulus with the given bits above the lowest byte of the
run: one more than its bytes but the topmost are ones. -/
def onesValue (above : Nat) : Nat :=
  if above = 0 then 0 else pow2 (8 * ((bitLength above - 1) / 8) + 1) - 1

@[simp] theorem onesValue_zero : onesValue 0 = 0 := rfl

/-- The run from one byte up, by the run from the next byte up. -/
theorem onesValue_step {above : Nat} (h : above / pow2 8 ≠ 0) :
    onesValue above = 255 + 256 * onesValue (above / pow2 8) := by
  have hne : above ≠ 0 := fun h0 => h (by rw [h0, Nat.zero_div])
  have hlength : 8 < bitLength above := by
    rw [lt_bitLength_iff]
    by_contra hlt
    exact h (Nat.div_eq_of_lt (by omega))
  have hexponent : 8 * ((bitLength above - 1) / 8) + 1 =
      8 * ((bitLength (above / pow2 8) - 1) / 8) + 1 + 8 := by
    rw [bitLength_div_pow2]
    omega
  have hpos := pow2_pos (8 * ((bitLength (above / pow2 8) - 1) / 8) + 1)
  rw [onesValue, onesValue, if_neg hne, if_neg h, hexponent, pow2_add]
  generalize pow2 (8 * ((bitLength (above / pow2 8) - 1) / 8) + 1) = power at hpos ⊢
  have hbyte : pow2 8 = 256 := rfl
  rw [hbyte]
  omega

theorem onesValue_of_lt {above : Nat} (hne : above ≠ 0) (h : above / pow2 8 = 0) :
    onesValue above = 1 := by
  have hlt : above < pow2 8 := by
    by_contra hge
    have hpos := Nat.div_pos (Nat.le_of_not_lt hge) (pow2_pos 8)
    omega
  have hlength := (bitLength_le_iff above 8).2 hlt
  have hexponent : 8 * ((bitLength above - 1) / 8) + 1 = 1 := by omega
  rw [onesValue, if_neg hne, hexponent]
  rfl

/-- The lowest 65 bits of the run are ones iff the modulus has a bit above its lowest eight bytes. -/
theorem onesValue_mod_iff (above : Nat) :
    onesValue above % pow2 65 = pow2 65 - 1 ↔ pow2 64 ≤ above := by
  have hpos := pow2_pos 65
  by_cases hzero : above = 0
  · rw [hzero, onesValue_zero]
    constructor
    · intro h
      exact absurd h (by decide)
    · intro h
      exact absurd h (by decide)
  · rw [onesValue, if_neg hzero, ← lt_bitLength_iff]
    rcases Nat.lt_or_ge 64 (bitLength above) with hlong | hshort
    · have hexponent : 8 * ((bitLength above - 1) / 8) + 1 =
          65 + (8 * ((bitLength above - 1) / 8) + 1 - 65) := by omega
      have hrest := pow2_pos (8 * ((bitLength above - 1) / 8) + 1 - 65)
      rw [hexponent, pow2_add]
      generalize pow2 (8 * ((bitLength above - 1) / 8) + 1 - 65) = rest at *
      have hsplit : pow2 65 * rest - 1 = pow2 65 - 1 + pow2 65 * (rest - 1) := by
        obtain ⟨rest', rfl⟩ : ∃ rest', rest = rest' + 1 := ⟨rest - 1, by omega⟩
        rw [Nat.add_sub_cancel, Nat.mul_succ]
        omega
      rw [hsplit, Nat.add_mul_mod_self_left, Nat.mod_eq_of_lt (by omega)]
      exact iff_of_true rfl hlong
    · have hsmall : pow2 (8 * ((bitLength above - 1) / 8) + 1) ≤ pow2 57 :=
        pow2_le_pow2 (by omega)
      have hgap : pow2 57 < pow2 65 := by decide
      have hone := pow2_pos (8 * ((bitLength above - 1) / 8) + 1)
      rw [Nat.mod_eq_of_lt (by omega)]
      exact iff_of_false (by omega) (by omega)

/-! ## Sums of bits -/

/-- The sum of bits counts ones, so it does not wrap and is zero for zero only. -/
theorem sum_eq_count {bits : List Scalar} (h : InRange 1 bits) :
    ∃ count ≤ bits.length, Scalar.sum bits = (count : Scalar) ∧
      (count = 0 ↔ value 1 bits = 0) := by
  induction bits with
  | nil => exact ⟨0, Nat.le_refl 0, rfl, iff_of_true rfl rfl⟩
  | cons bit bits ih =>
    obtain ⟨hbit, hbits⟩ := (inRange_cons 1 bit bits).1 h
    obtain ⟨count, hle, hsum, hzero⟩ := ih hbits
    have hbase : pow2 1 = 2 := rfl
    refine ⟨bit.val + count, ?_, ?_, ?_⟩
    · rw [List.length_cons]
      omega
    · rw [Nat.cast_add, Scalar.natCast_val, ← hsum]
      rfl
    · rw [value_cons, hbase]
      omega

theorem sum_eq_zero_iff {bits : List Scalar} (h : InRange 1 bits)
    (hlength : bits.length < fieldOrder) : Scalar.sum bits = 0 ↔ value 1 bits = 0 := by
  obtain ⟨count, hle, hsum, hzero⟩ := sum_eq_count h
  rw [hsum, ← hzero]
  constructor
  · intro hcast
    refine Scalar.natCast_inj_of_lt (by omega) fieldOrder_pos ?_
    rw [hcast, Nat.cast_zero]
  · intro hcount
    rw [hcount, Nat.cast_zero]

/-- The first suffix sum is the sum of everything that the groups cover. -/
theorem suffixSums_headD (count : Nat) {bits : List Scalar} (h : bits.length ≤ 8 * count) :
    (suffixSums ((groups 8 count bits).map Scalar.sum)).headD 0 = Scalar.sum bits := by
  induction count generalizing bits with
  | zero =>
    have hnil : bits = [] := List.length_eq_zero_iff.1 (by omega)
    rw [hnil]
    rfl
  | succ count ih =>
    have hrest := @ih (bits.drop 8) (by rw [List.length_drop]; omega)
    rw [groups, List.map_cons, suffixSums, List.headD_cons, hrest]
    exact List.sum_take_add_sum_drop bits 8

theorem length_groups {α : Type} (size count : Nat) (xs : List α) :
    (groups size count xs).length = count := by
  induction count generalizing xs with
  | zero => rfl
  | succ count ih => rw [groups, List.length_cons, ih]

theorem length_suffixSums (xs : List Scalar) : (suffixSums xs).length = xs.length := by
  induction xs with
  | nil => rfl
  | cons x xs ih => rw [suffixSums, List.length_cons, List.length_cons, ih]

/-! ## Spreading -/

/-- The lowest bits of the bytes of the run: whether the modulus has a bit from the byte up. -/
def flags (count : Nat) (bits : List Scalar) : List Scalar :=
  (suffixSums ((groups 8 count bits).map Scalar.sum)).map fun s => Scalar.ofBool (!decide (s = 0))

theorem flags_headD {count : Nat} {bits : List Scalar} (h : InRange 1 bits)
    (hlength : bits.length < fieldOrder) (hcover : bits.length ≤ 8 * count) :
    (flags count bits).headD 0 = Scalar.ofBool (!decide (value 1 bits = 0)) := by
  have hhead := suffixSums_headD count hcover
  have hzero := sum_eq_zero_iff h hlength
  rw [flags]
  cases hsums : suffixSums ((groups 8 count bits).map Scalar.sum) with
  | nil =>
    rw [hsums, List.headD_nil] at hhead
    rw [List.map_nil, List.headD_nil, decide_eq_true (hzero.1 hhead.symm)]
    rfl
  | cons s sums =>
    rw [hsums, List.headD_cons] at hhead
    rw [List.map_cons, List.headD_cons, hhead, decide_eq_decide.2 hzero]

theorem val_ofBool (b : Bool) : (Scalar.ofBool b).val = b.toNat := by cases b <;> rfl

theorem inRange_ofBool (b : Bool) : (Scalar.ofBool b).val < pow2 1 := by cases b <;> decide

theorem value_replicate_ofBool (count : Nat) (b : Bool) :
    value 1 (List.replicate count (Scalar.ofBool b)) = b.toNat * (pow2 count - 1) := by
  induction count with
  | zero => exact (Nat.mul_zero _).symm
  | succ count ih =>
    have hpos := pow2_pos count
    have hbase : pow2 1 = 2 := rfl
    rw [List.replicate_succ, value_cons, ih, val_ofBool, pow2_succ count, hbase]
    cases b with
    | false => simp
    | true =>
      rw [Bool.toNat_true]
      omega

/-- One byte of the run, by the rest of the run. -/
theorem spread_cons {low next : Bool} {width : Nat} {rest : List (Scalar × Nat)}
    (hnext : (rest.map (·.1)).headD 0 = Scalar.ofBool next) (hrest : InRange 1 (spread rest)) :
    InRange 1 (spread ((Scalar.ofBool low, width) :: rest)) ∧
      (spread ((Scalar.ofBool low, width) :: rest)).length =
        1 + (width - 1 + (spread rest).length) ∧
      value 1 (spread ((Scalar.ofBool low, width) :: rest)) =
        low.toNat + 2 * (next.toNat * (pow2 (width - 1) - 1) +
          pow2 (width - 1) * value 1 (spread rest)) := by
  have hspread : spread ((Scalar.ofBool low, width) :: rest) =
      Scalar.ofBool low :: (List.replicate (width - 1) (Scalar.ofBool next) ++ spread rest) := by
    rw [spread, hnext]
  have hcopies : InRange 1 (List.replicate (width - 1) (Scalar.ofBool next)) := by
    intro bit hbit
    rw [List.eq_of_mem_replicate hbit]
    exact inRange_ofBool next
  rw [hspread]
  refine ⟨(inRange_cons 1 _ _).2 ⟨inRange_ofBool low, (inRange_append _ _).2 ⟨hcopies, hrest⟩⟩, ?_, ?_⟩
  · rw [List.length_cons, List.length_append, List.length_replicate, Nat.add_comm]
  · rw [value_cons, value_append, value_replicate_ofBool, List.length_replicate, Nat.one_mul,
      val_ofBool]
    rfl

/-- The value of a run by its lowest byte, which is a whole one if there is another byte above it. -/
theorem run_value {above width : Nat} (hwidth : above / pow2 8 ≠ 0 → width = 8) :
    (!decide (above = 0)).toNat + 2 * ((!decide (above / pow2 8 = 0)).toNat * (pow2 (width - 1) - 1) +
      pow2 (width - 1) * onesValue (above / pow2 8)) = onesValue above := by
  by_cases hhigh : above / pow2 8 = 0
  · by_cases hzero : above = 0
    · rw [hzero, Nat.zero_div]
      simp
    · rw [onesValue_of_lt hzero hhigh, hhigh, decide_eq_false hzero]
      simp
  · have hne : above ≠ 0 := fun h0 => hhigh (by rw [h0, Nat.zero_div])
    have hbyte : pow2 (8 - 1) = 128 := rfl
    rw [onesValue_step hhigh, hwidth hhigh, decide_eq_false hne, decide_eq_false hhigh, hbyte]
    simp only [Bool.not_false, Bool.toNat_true]
    omega

/-- The run has one bit per bit of the modulus above its lowest byte. -/
theorem spread_flags (count : Nat) {bits : List Scalar} (h : InRange 1 bits)
    (hlength : bits.length < fieldOrder) (hcover : bits.length ≤ 8 * count)
    (htight : 8 * count < bits.length + 8) :
    InRange 1 (spread ((flags count bits).zip ((groups 8 count bits).map (·.length)))) ∧
      (spread ((flags count bits).zip ((groups 8 count bits).map (·.length)))).length =
        bits.length ∧
      value 1 (spread ((flags count bits).zip ((groups 8 count bits).map (·.length)))) =
        onesValue (value 1 bits) := by
  induction count generalizing bits with
  | zero =>
    have hnil : bits = [] := List.length_eq_zero_iff.1 (by omega)
    rw [hnil]
    exact ⟨inRange_nil 1, rfl, rfl⟩
  | succ count ih =>
    have hdrop := h.drop 8
    have hdropLength : (bits.drop 8).length = bits.length - 8 := List.length_drop
    have hvalue : value 1 (bits.drop 8) = value 1 bits / pow2 8 := value_drop h 8
    have hcoverDrop : (bits.drop 8).length ≤ 8 * count := by omega
    obtain ⟨hrange, hrestLength, hrest⟩ := ih hdrop (by omega) hcoverDrop (by omega)
    have hfst : (((flags count (bits.drop 8)).zip
        ((groups 8 count (bits.drop 8)).map (·.length))).map (·.1)).headD 0 =
        Scalar.ofBool (!decide (value 1 (bits.drop 8) = 0)) := by
      have hlengths : (flags count (bits.drop 8)).length =
          ((groups 8 count (bits.drop 8)).map (·.length)).length := by
        rw [flags, List.length_map, length_suffixSums, List.length_map, List.length_map]
      rw [List.map_fst_zip hlengths.le, flags_headD hdrop (by omega) hcoverDrop]
    have hzip : (flags (count + 1) bits).zip ((groups 8 (count + 1) bits).map (·.length)) =
        (Scalar.ofBool (!decide (value 1 bits = 0)), (bits.take 8).length) ::
          (flags count (bits.drop 8)).zip ((groups 8 count (bits.drop 8)).map (·.length)) := by
      rw [← flags_headD h hlength hcover]
      rfl
    obtain ⟨hrun, hrunLength, hrunValue⟩ := @spread_cons (!decide (value 1 bits = 0)) _
      (bits.take 8).length _ hfst hrange
    rw [hzip]
    have htake : (bits.take 8).length = min 8 bits.length := List.length_take
    have hwidth : value 1 bits / pow2 8 ≠ 0 → (bits.take 8).length = 8 := by
      intro hlong
      have hlt := value_lt 1 bits h
      rw [Nat.one_mul] at hlt
      rw [htake]
      by_contra hshort
      have hle : pow2 bits.length ≤ pow2 8 := pow2_le_pow2 (by omega)
      exact hlong (Nat.div_eq_of_lt (by omega))
    refine ⟨hrun, ?_, ?_⟩
    · rw [hrunLength, hrestLength, hdropLength, htake]
      omega
    · rw [hrunValue, hrest, hvalue]
      exact run_value hwidth

/-! ## Limbs from bits -/

/-- Cutting bits into groups as wide as limbs and joining each gives limbs of the same integer. -/
theorem joined_groups {width count : Nat} (hwidth : width ≤ 253) {bits : List Scalar}
    (h : InRange 1 bits) (hlength : bits.length = width * count) :
    InRange width ((groups width count bits).map fun group => (value 1 group : Scalar)) ∧
      value width ((groups width count bits).map fun group => (value 1 group : Scalar)) =
        value 1 bits ∧
      ∀ group ∈ groups width count bits, group.length = width := by
  induction count generalizing bits with
  | zero =>
    have hnil : bits = [] := List.length_eq_zero_iff.1 (by omega)
    rw [hnil]
    exact ⟨inRange_nil width, rfl, by simp [groups]⟩
  | succ count ih =>
    rw [Nat.mul_succ] at hlength
    have hdrop : (bits.drop width).length = width * count := by
      rw [List.length_drop]
      omega
    have htake : (bits.take width).length = width := by
      rw [List.length_take]
      omega
    obtain ⟨hrange, hvalue, hgroups⟩ := ih (h.drop width) hdrop
    have hlow := value_lt 1 _ (h.take width)
    rw [htake, Nat.one_mul] at hlow
    have hval : ((value 1 (bits.take width) : Nat) : Scalar).val = value 1 (bits.take width) :=
      Scalar.val_natCast_of_lt (hlow.trans (pow2_lt_fieldOrder hwidth))
    have hsplit := value_append 1 (bits.take width) (bits.drop width)
    rw [List.take_append_drop, htake, Nat.one_mul] at hsplit
    refine ⟨?_, ?_, ?_⟩
    · rw [groups, List.map_cons]
      exact (inRange_cons width _ _).2 ⟨by rwa [hval], hrange⟩
    · rw [groups, List.map_cons, value_cons, hval, hvalue, hsplit]
    · rw [groups]
      exact List.forall_mem_cons.2 ⟨htake, hgroups⟩

/-- Bits are all ones iff they stand for the largest integer of their length. -/
theorem all_ones_iff {bits : List Scalar} (h : InRange 1 bits) :
    (∀ bit ∈ bits, bit = 1) ↔ value 1 bits = pow2 bits.length - 1 := by
  induction bits with
  | nil => exact iff_of_true (by simp) rfl
  | cons bit bits ih =>
    obtain ⟨hbit, hbits⟩ := (inRange_cons 1 bit bits).1 h
    have hbase : pow2 1 = 2 := rfl
    have hone : bit = 1 ↔ bit.val = 1 := ⟨congrArg Scalar.val, fun hval => Scalar.ext_val hval⟩
    have hlt := value_lt 1 bits hbits
    rw [Nat.one_mul] at hlt
    rw [List.forall_mem_cons, ih hbits, hone, List.length_cons, value_cons, pow2_succ bits.length,
      hbase]
    omega

/-- Bits are all zero iff they stand for zero. -/
theorem all_zero_iff (bits : List Scalar) : (∀ bit ∈ bits, bit = 0) ↔ value 1 bits = 0 := by
  constructor
  · intro h
    rw [List.eq_replicate_of_mem h, value_replicate_zero]
  · exact eq_zero_of_value_eq_zero

end Padding

end RsaCircuit
