import RsaCircuit.Component.Comparison
import RsaCircuit.Component.Gate
import RsaCircuit.Component.ZeroTest
import RsaCircuit.Proofs.Component.Bits
set_option autoImplicit false

/-!
# Tests, gates and comparisons of scalars are exact

Tests and gates answer truth values as 0 or 1, and none of their checks can fail.

A comparison answers the sign of the signed difference of its inputs.  It splits the difference after
raising it by half of the range of the split, and the field is wide enough that a difference outside
the window around zero does not wrap into that range (`Comparison.decides_window`).  So a comparison
refuses inputs that it cannot tell apart, and inputs within its width are always compared.
-/

namespace RsaCircuit

/-! ## Tests -/

theorem ZeroTest.decides (x : Scalar) :
    (component.run x).Decides True fun w => w.out = Scalar.ofBool (decide (x = 0)) := by
  have hinverse : x * (1 - x * x.inverse?.getD 0) = 0 ∧
      1 - x * x.inverse?.getD 0 = Scalar.ofBool (decide (x = 0)) := by
    by_cases hx : x = 0
    · rw [hx, zero_mul, zero_mul, sub_zero]
      exact ⟨rfl, rfl⟩
    · rw [Scalar.inverse?, if_neg hx, Option.getD_some, Scalar.mul_inv_cancel_of_ne_zero hx,
        sub_self, mul_zero, decide_eq_false hx]
      exact ⟨rfl, rfl⟩
  have hcheck : (Run.assertZero (x * (1 - x * x.inverse?.getD 0)) "input * out == 0").Decides True
      fun _ => True := Run.Decides.check.congr (iff_true_intro hinverse.1)
  exact hcheck.bind_total fun _ _ => Run.Decides.done hinverse.2

theorem EqualityTest.decides (left right : Scalar) :
    (component.run (left, right)).Decides True fun w =>
      w.out = Scalar.ofBool (decide (left = right)) := by
  have htest : (ZeroTest.component.place "is_zero" (right - left)).Decides True fun w =>
      w.out = Scalar.ofBool (decide (right - left = 0)) := (ZeroTest.decides _).place
  refine htest.bind_total fun zeroTest hzero => Run.Decides.done ?_
  rw [hzero]
  exact congrArg Scalar.ofBool (decide_eq_decide.2 (sub_eq_zero.trans eq_comm))

/-! ## Gates -/

theorem Gate.decides (gate : Gate) (left right : Scalar) :
    (gate.component.run (left, right)).Decides True fun w => w.out = gate.eval left right :=
  Run.Decides.done rfl

theorem Gate.eval_and (a b : Bool) :
    Gate.and.eval (Scalar.ofBool a) (Scalar.ofBool b) = Scalar.ofBool (a && b) := by
  cases a <;> cases b <;> decide

theorem Gate.eval_or (a b : Bool) :
    Gate.or.eval (Scalar.ofBool a) (Scalar.ofBool b) = Scalar.ofBool (a || b) := by
  cases a <;> cases b <;> decide

/-! ## Scalars -/

/-- The top bit of a value that has no more bits. -/
theorem testBit_top {bits v : Nat} (h : v < pow2 (bits + 1)) :
    v.testBit bits = decide (pow2 bits ≤ v) := by
  have hpos := pow2_pos bits
  have hquotient : v / pow2 bits < 2 := by
    rwa [Nat.div_lt_iff_lt_mul hpos, ← pow2_succ]
  have hone : 1 ≤ v / pow2 bits ↔ pow2 bits ≤ v := by
    rw [Nat.le_div_iff_mul_le hpos, Nat.one_mul]
  rw [Nat.testBit_eq_decide_div_mod_eq, decide_eq_decide, ← hone]
  change v / pow2 bits % 2 = 1 ↔ _
  generalize v / pow2 bits = quotient at hquotient
  omega

namespace Comparison

/-- What is split is the difference, raised by half of the range of the split. -/
theorem shifted_eq (bits : Nat) (left right : Scalar) :
    left + Scalar.twoPow bits - right = left - right + ((pow2 bits : Nat) : Scalar) :=
  add_sub_right_comm left (Scalar.twoPow bits) right

/-- The top bit of what is split says that the difference is not negative. -/
theorem testBit_shifted {bits : Nat} (hbits : bits ≤ maxComparisonBits) {difference : Scalar}
    (hlower : -(pow2 bits : Int) ≤ difference.toInt) (hupper : difference.toInt < pow2 bits) :
    (difference + ((pow2 bits : Nat) : Scalar)).val.testBit bits =
      !decide (difference.toInt < 0) := by
  have hhalf : pow2 bits ≤ maxMagnitude := pow2_le_maxMagnitude hbits
  have hval := Scalar.val_add_half hhalf difference
  rw [if_pos hlower] at hval
  have hrange : (difference + ((pow2 bits : Nat) : Scalar)).val < pow2 (bits + 1) := by
    rw [pow2_succ]
    exact (Scalar.val_add_half_lt_iff hhalf difference).2 ⟨hlower, hupper⟩
  rw [testBit_top hrange, ← decide_not, decide_eq_decide]
  omega

/-- A comparison decides whether the signed difference of its inputs is in its window, and answers
the sign of the difference. -/
theorem decides_window (comparison : Comparison) (left right : Scalar) :
    (comparison.component.run (left, right)).Decides
      (-(pow2 comparison.bits : Int) ≤ (left - right).toInt ∧
        (left - right).toInt < pow2 comparison.bits)
      fun w => w.out = Scalar.ofBool (decide ((left - right).toInt < 0)) := by
  have hwindow : (left + Scalar.twoPow comparison.bits - right).val < pow2 (comparison.bits + 1) ↔
      -(pow2 comparison.bits : Int) ≤ (left - right).toInt ∧
        (left - right).toInt < pow2 comparison.bits := by
    rw [shifted_eq, pow2_succ]
    exact Scalar.val_add_half_lt_iff (pow2_le_maxMagnitude comparison.bits_le) _
  refine ((BitSplit.decides _ _).congr hwindow).place.bind_done fun hbounds split hw => ?_
  have hlength : comparison.bits < split.out.length := by
    rw [hw, Scalar.length_bits]
    exact Nat.lt_succ_self _
  rw [Run.ofDomain_bind (elementAt?_of_lt hlength 0)]
  refine Run.Decides.done ?_
  have htop : split.out.getD comparison.bits 0 =
      Scalar.ofBool (!decide ((left - right).toInt < 0)) := by
    rw [hw, Scalar.getD_bits (Nat.lt_succ_self _), shifted_eq,
      testBit_shifted comparison.bits_le hbounds.1 hbounds.2]
  rw [htop, Scalar.one_sub_ofBool, Bool.not_not]

/-- The signed difference of inputs of few bits is the difference of their representatives. -/
theorem toInt_sub_of_lt {bits : Nat} (hbits : bits ≤ maxComparisonBits) {left right : Scalar}
    (hleft : left.val < pow2 bits) (hright : right.val < pow2 bits) :
    (left - right).toInt = (left.val : Int) - right.val := by
  have hmax : pow2 bits ≤ maxMagnitude := pow2_le_maxMagnitude hbits
  refine Scalar.toInt_eq_of_cast (by omega) ?_
  rw [Int.cast_sub, Int.cast_natCast, Int.cast_natCast, Scalar.natCast_val, Scalar.natCast_val]

/-- On inputs within its width a comparison answers their order. -/
theorem decides (comparison : Comparison) {left right : Scalar}
    (hleft : left.val < pow2 comparison.bits) (hright : right.val < pow2 comparison.bits) :
    (comparison.component.run (left, right)).Decides True fun w =>
      w.out = Scalar.ofBool (decide (left.val < right.val)) := by
  have hdifference := toInt_sub_of_lt comparison.bits_le hleft hright
  have hsign : decide ((left - right).toInt < 0) = decide (left.val < right.val) := by
    rw [decide_eq_decide]
    omega
  have hrun := decides_window comparison left right
  rw [hsign] at hrun
  exact hrun.congr (iff_true_intro ⟨by omega, by omega⟩)

/-- A difference outside the window is refused by the split. -/
theorem fails_outside_window (comparison : Comparison) {left right : Scalar}
    (hnot : ¬ (-(pow2 comparison.bits : Int) ≤ (left - right).toInt ∧
      (left - right).toInt < pow2 comparison.bits)) :
    (comparison.component.run (left, right)).FailsWith fun failure => failure.place = ["n2b"] := by
  have hwide : pow2 (comparison.bits + 1) ≤ (left + Scalar.twoPow comparison.bits - right).val := by
    rw [shifted_eq, pow2_succ]
    exact Nat.le_of_not_lt fun hlt => hnot
      ((Scalar.val_add_half_lt_iff (pow2_le_maxMagnitude comparison.bits_le) _).1 hlt)
  apply Run.FailsWith.bind_left
  apply Run.FailsWith.place
  exact (BitSplit.fails hwide).weaken fun failure hfailure => by rw [hfailure]; rfl

/-- A comparison of at most 252 bits never answers wrongly, whatever its inputs are.  It has a result
iff their signed difference is in the window of the comparison, and the result then is the sign of
the difference; every other difference is refused by the split.  Inputs within the width are always
compared. -/
theorem compares_differences (bits : Nat) (left right : Scalar) (context : Context)
    (hbits : bits ≤ 252) :
    ∃ comparison, ofBits? bits = .ok comparison ∧
      let result := ((comparison.component.run (left, right)).exec context).1
      let difference := (left - right).toInt
      ((∃ w, result = .ok w) ↔ -2 ^ bits ≤ difference ∧ difference < 2 ^ bits) ∧
        (∀ w, result = .ok w → w.out = if difference < 0 then 1 else 0) ∧
        (¬ (-2 ^ bits ≤ difference ∧ difference < 2 ^ bits) →
          ∃ e, result = .error (.error e) ∧ e.path = "n2b" :: context.path) ∧
        (left.val < 2 ^ bits → right.val < 2 ^ bits →
          ∃ w, result = .ok w ∧ (w.out = 1 ↔ left.val < right.val)) := by
  have hpow : (2 : Int) ^ bits = (pow2 bits : Nat) := by
    change _ = ((2 ^ bits : Nat) : Int)
    push_cast
    rfl
  refine ⟨⟨bits, hbits⟩, dif_pos hbits, ?_⟩
  intro result difference
  rw [hpow]
  have hdecides := decides_window ⟨bits, hbits⟩ left right
  refine ⟨hdecides.exec_ok_iff context, fun w hw => ?_, fun hnot => ?_, fun hleft hright => ?_⟩
  · rw [(hdecides.of_exec_ok hw).2, Scalar.ofBool_decide]
  · obtain ⟨e, failure, hexec, hplace, hpath, _⟩ :=
      (fails_outside_window ⟨bits, hbits⟩ hnot).exec context
    exact ⟨e, hexec, by rw [hpath, hplace, List.singleton_append]⟩
  · have horder := decides ⟨bits, hbits⟩ hleft hright
    obtain ⟨w, hw⟩ := (horder.exec_ok_iff context).2 trivial
    refine ⟨w, hw, ?_⟩
    rw [(horder.of_exec_ok hw).2, Scalar.ofBool_eq_one_iff, decide_eq_true_iff]

/-- At the widest window its lowest difference is answered and the one below is refused. -/
theorem compares_differences_sample :
    ∃ comparison, ofBits? 252 = .ok comparison ∧
      let result := fun left right =>
        ((comparison.component.run (left, right)).exec (Context.ofRoot "main")).1
      (∃ w, result 0 (Scalar.twoPow 252) = .ok w ∧ w.out = 1) ∧
        (∃ e, result (-1) (Scalar.twoPow 252) = .error (.error e) ∧ e.path = ["n2b", "main"]) ∧
        ∃ w, result 7 5 = .ok w ∧ ¬ w.out = 1 := by
  obtain ⟨comparison, hcomparison, hlowest, hanswer, _⟩ :=
    compares_differences 252 0 (Scalar.twoPow 252) (Context.ofRoot "main") (by decide)
  obtain ⟨_, hbelow, _, _, hrefused, _⟩ :=
    compares_differences 252 (-1) (Scalar.twoPow 252) (Context.ofRoot "main") (by decide)
  obtain ⟨_, hplain, _, _, _, horder⟩ :=
    compares_differences 252 7 5 (Context.ofRoot "main") (by decide)
  -- the width determines the comparison
  obtain rfl := Except.ok.inj (hcomparison.symm.trans hbelow)
  obtain rfl := Except.ok.inj (hcomparison.symm.trans hplain)
  refine ⟨comparison, hcomparison, ?_, hrefused (by decide +kernel), ?_⟩
  · obtain ⟨w, hw⟩ := hlowest.2 (by decide +kernel)
    exact ⟨w, hw, (hanswer w hw).trans (by decide +kernel)⟩
  · obtain ⟨w, hw, hiff⟩ := horder (by decide +kernel) (by decide +kernel)
    exact ⟨w, hw, fun hout => absurd (hiff.1 hout) (by decide +kernel)⟩

end Comparison

end RsaCircuit
