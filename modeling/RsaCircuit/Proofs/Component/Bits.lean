import RsaCircuit.Component.Bits
import RsaCircuit.Proofs.Limbs.Value
import RsaCircuit.Proofs.Run.Outcome
set_option autoImplicit false

/-!
# Splits and joins are exact

Bits are limbs of width one, so a split is the lowest digits of a value and a weighted sum is the
value of limbs, reduced into the field.  A split of any width passes its check iff the input has no
more bits than that: this is the range check of every other component.
-/

namespace RsaCircuit

/-! ## Bits as limbs -/

theorem Scalar.ofBool_eq_ofNat (b : Bool) : Scalar.ofBool b = Scalar.ofNat b.toNat := by
  cases b <;> rfl

theorem Scalar.one_sub_ofBool (b : Bool) : 1 - Scalar.ofBool b = Scalar.ofBool (!b) := by
  cases b <;> decide

theorem Scalar.ofBool_eq_one_iff (b : Bool) : Scalar.ofBool b = 1 ↔ b = true := by
  cases b <;> decide

theorem Scalar.ofBool_decide (p : Prop) [Decidable p] :
    Scalar.ofBool (decide p) = if p then 1 else 0 := by
  by_cases h : p <;> simp [Scalar.ofBool, h]

/-- A limb of width one is a truth value. -/
theorem Scalar.eq_zero_or_one {bit : Scalar} (h : bit.val < pow2 1) : bit = 0 ∨ bit = 1 := by
  have hcases : bit.val = 0 ∨ bit.val = 1 := by
    change bit.val < 2 at h
    omega
  exact hcases.imp Scalar.ext_val Scalar.ext_val

theorem map_testBit (count v : Nat) :
    (List.range count).map (fun i => Scalar.ofBool (v.testBit i)) = Limbs.split 1 count v := by
  induction count generalizing v with
  | zero => rfl
  | succ count ih =>
    have hlow : Scalar.ofBool (v.testBit 0) = Scalar.ofNat (v % pow2 1) := by
      rw [Scalar.ofBool_eq_ofNat, Nat.toNat_testBit, pow_zero, Nat.div_one]
      rfl
    have hhigh : (fun i => Scalar.ofBool (v.testBit i)) ∘ Nat.succ =
        fun i => Scalar.ofBool ((v / pow2 1).testBit i) := by
      funext i
      exact congrArg Scalar.ofBool (Nat.testBit_succ v i)
    rw [List.range_succ_eq_map, List.map_cons, List.map_map, hhigh, ih, hlow, Limbs.split]

theorem Scalar.bits_eq_split (count : Nat) (x : Scalar) :
    x.bits count = Limbs.split 1 count x.val := map_testBit count x.val

theorem Scalar.inRange_bits (count : Nat) (x : Scalar) : Limbs.InRange 1 (x.bits count) := by
  rw [Scalar.bits_eq_split]
  exact Limbs.inRange_split (by decide) count x.val

theorem Scalar.value_bits (count : Nat) (x : Scalar) :
    Limbs.value 1 (x.bits count) = x.val % pow2 count := by
  rw [Scalar.bits_eq_split, Limbs.value_split (by decide), Nat.one_mul]

theorem Scalar.getD_bits {count i : Nat} (hi : i < count) (x : Scalar) :
    (x.bits count).getD i 0 = Scalar.ofBool (x.val.testBit i) := by
  have hlength : i < ((List.range count).map fun j => Scalar.ofBool (x.val.testBit j)).length := by
    rwa [List.length_map, List.length_range]
  rw [Scalar.bits, List.getD_eq_getElem _ _ hlength, List.getElem_map, List.getElem_range]

/-- Weights double from bit to bit, whatever the bits are. -/
theorem weightedSum_eq (weight : Scalar) (bits : List Scalar) :
    weightedSum weight bits = weight * (Limbs.value 1 bits : Scalar) := by
  induction bits generalizing weight with
  | nil => rw [weightedSum, Limbs.value_nil, Nat.cast_zero, mul_zero]
  | cons bit bits ih =>
    have htwo : ((pow2 1 : Nat) : Scalar) = 2 := by decide
    rw [weightedSum, ih, Limbs.value_cons, Nat.cast_add, Nat.cast_mul, Scalar.natCast_val, htwo]
    ring

theorem weightedSum_one (bits : List Scalar) :
    weightedSum 1 bits = (Limbs.value 1 bits : Scalar) := by
  rw [weightedSum_eq, one_mul]

/-- The bits of limbs are the bits of the integer that the limbs stand for. -/
theorem value_flatMap_bits {width : Nat} {xs : Limbs} (h : Limbs.InRange width xs) :
    Limbs.value 1 (xs.flatMap (Scalar.bits width)) = Limbs.value width xs := by
  induction xs with
  | nil => rfl
  | cons x xs ih =>
    obtain ⟨hx, hxs⟩ := (Limbs.inRange_cons width x xs).1 h
    rw [List.flatMap_cons, Limbs.value_append, Scalar.length_bits, ih hxs, Scalar.value_bits,
      Nat.mod_eq_of_lt hx, Nat.one_mul, Limbs.value_cons]

theorem inRange_flatMap_bits (width : Nat) (xs : Limbs) :
    Limbs.InRange 1 (xs.flatMap (Scalar.bits width)) := by
  intro bit hbit
  obtain ⟨x, _, hx⟩ := List.mem_flatMap.1 hbit
  exact Scalar.inRange_bits width x bit hx

theorem length_flatMap_bits (width : Nat) (xs : Limbs) :
    (xs.flatMap (Scalar.bits width)).length = width * xs.length := by
  induction xs with
  | nil => rfl
  | cons x xs ih =>
    rw [List.flatMap_cons, List.length_append, Scalar.length_bits, ih, List.length_cons,
      Nat.mul_succ, Nat.add_comm]

/-! ## The components -/

namespace BitSplit

theorem boolean_of_lt {bit : Scalar} (h : bit.val < pow2 1) : bit * (bit - 1) = 0 := by
  rcases Scalar.eq_zero_or_one h with hbit | hbit
  · rw [hbit, zero_mul]
  · rw [hbit, sub_self, mul_zero]

/-- The lowest bits add up to the input iff it has no others. -/
theorem weightedSum_bits_iff (bits : Nat) (x : Scalar) :
    weightedSum 1 (x.bits bits) = x ↔ x.val < pow2 bits := by
  have hle := Nat.mod_le x.val (pow2 bits)
  have hlt := x.isLt
  rw [weightedSum_one, Scalar.value_bits]
  constructor
  · intro h
    have hmod : x.val % pow2 bits = x.val := by
      refine Scalar.natCast_inj_of_lt (by omega) hlt ?_
      rw [h, Scalar.natCast_val]
    rw [← hmod]
    exact Nat.mod_lt _ (pow2_pos bits)
  · intro h
    rw [Nat.mod_eq_of_lt h, Scalar.natCast_val]

theorem booleans_decide (bits : Nat) (x : Scalar) :
    (Run.each assertBoolean (x.bits bits)).Decides True fun _ => True := by
  have hboolean : ∀ bit ∈ x.bits bits, (assertBoolean bit).Decides True fun _ => True :=
    fun bit hbit =>
      Run.Decides.check.congr (iff_true_intro (boolean_of_lt (Scalar.inRange_bits bits x bit hbit)))
  exact (Run.Decides.each hboolean).congr (by simp)

/-- A split decides whether its input is in range. -/
theorem decides (bits : Nat) (x : Scalar) :
    ((component bits).run x).Decides (x.val < pow2 bits) fun w => w = ⟨x.bits bits, x⟩ := by
  have hsum : (Run.assertEqual (weightedSum 1 (x.bits bits)) x
      "bits add up to the input").Decides (x.val < pow2 bits) fun _ => True :=
    Run.Decides.check.congr (weightedSum_bits_iff bits x)
  exact (booleans_decide bits x).bind_total fun _ _ =>
    hsum.bind_done fun _ _ _ => Run.Decides.done rfl

/-- An input out of range fails the last check: its lowest bits add up to what is left of it by the
power of the width. -/
theorem fails {bits : Nat} {x : Scalar} (h : pow2 bits ≤ x.val) :
    ((component bits).run x).FailsWith fun failure =>
      failure = ⟨[], .unequal "bits add up to the input" (Scalar.ofNat (x.val % pow2 bits)) x⟩ := by
  have hne : weightedSum 1 (x.bits bits) ≠ x := fun heq =>
    absurd ((weightedSum_bits_iff bits x).1 heq) (Nat.not_lt_of_le h)
  have hsum : weightedSum 1 (x.bits bits) = Scalar.ofNat (x.val % pow2 bits) := by
    rw [weightedSum_one, Scalar.value_bits]
    rfl
  rw [← hsum]
  exact Run.FailsWith.bind_right (booleans_decide bits x) trivial fun _ _ =>
    (Run.FailsWith.check hne).bind_left

/-- Splits of a list of limbs are their range check. -/
theorem decides_each (width : Nat) (label : String) (xs : Limbs) :
    ((component width).placeEach label xs).Decides (Limbs.InRange width xs) fun ws =>
      ws = xs.map fun x => ⟨x.bits width, x⟩ :=
  (Run.Decides.placeEach fun x _ => decides width x).weaken fun _ _ hws =>
    Run.eq_map_of_forall₂ hws

end BitSplit

namespace BitJoin

theorem decides {bits : Nat} {input : List Scalar} (h : input.length = bits) :
    ((component bits).run input).Decides True fun w =>
      w = ⟨(Limbs.value 1 input : Scalar), input⟩ := by
  have hrun : (component bits).run input =
      (pure { out := weightedSum 1 input, input } : Run Witness) := if_pos h
  rw [hrun, weightedSum_one]
  exact Run.Decides.done rfl

end BitJoin

end RsaCircuit
