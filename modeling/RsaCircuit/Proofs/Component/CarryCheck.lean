import RsaCircuit.Component.CarryCheck
import RsaCircuit.Proofs.Component.Bits
import RsaCircuit.Proofs.Registers
set_option autoImplicit false

/-!
# The carry check certifies zero

In the field every carry is exact, so a carry check passes iff the biased carries are in range and
the last register cancels the last carry (`CarryCheck.Passes`).  A carry in range is exact over the
integers as well: both sides of its equation are too small to differ by a multiple of the field
order.  Conversely registers below the bound of the check have carries in range if their total is
zero.  Together this is `CarryCheck.certifies_zero`.
-/

namespace RsaCircuit

namespace CarryCheck

variable {check : CarryCheck}

/-- What a carry check tests: biased carries in range, and a last register that cancels the last
carry. -/
def Passes (check : CarryCheck) : Scalar → Registers → Prop
  | _, [] => True
  | carry, [last] => last + carry = 0
  | carry, register :: next :: rest =>
    ((register + carry) * (Scalar.twoPow check.width)⁻¹ + check.bias).val < pow2 check.rangeBits ∧
      check.Passes ((register + carry) * (Scalar.twoPow check.width)⁻¹) (next :: rest)

/-- The carries out of all registers but the last, with `carry` coming into the first. -/
def carriesOut (check : CarryCheck) : Scalar → Registers → List Scalar
  | _, [] => []
  | _, [_] => []
  | carry, register :: next :: rest =>
    (register + carry) * (Scalar.twoPow check.width)⁻¹ ::
      check.carriesOut ((register + carry) * (Scalar.twoPow check.width)⁻¹) (next :: rest)

/-- The parameters for which a check is meant: limbs of at least one bit, and carries of at least
one. -/
structure Sized (check : CarryCheck) : Prop where
  width_pos : 0 < check.width
  width_le : check.width ≤ check.bits + 2

theorem twoPow_mul_inv (width : Nat) : Scalar.twoPow width * (Scalar.twoPow width)⁻¹ = 1 :=
  Scalar.mul_inv_cancel_of_ne_zero (Scalar.twoPow_ne_zero width)

theorem length_carriesOut (check : CarryCheck) (carry : Scalar) (registers : Registers) :
    (check.carriesOut carry registers).length = registers.length - 1 := by
  induction registers generalizing carry with
  | nil => rfl
  | cons register registers ih =>
    cases registers with
    | nil => rfl
    | cons next rest => exact congrArg (· + 1) (ih _)

theorem carryFrom_decides (check : CarryCheck) {registers : Registers} (hne : registers ≠ [])
    (i : Nat) (carry : Scalar) :
    (check.carryFrom (Scalar.twoPow check.width) (Scalar.twoPow check.width)⁻¹ i carry
      registers).Decides (check.Passes carry registers) fun carries =>
        carries.carry = check.carriesOut carry registers := by
  induction registers generalizing i carry with
  | nil => exact absurd rfl hne
  | cons register registers ih =>
    cases registers with
    | nil => exact Run.Decides.check.bind_done fun _ _ _ => Run.Decides.done rfl
    | cons next rest =>
      have hexact : (Run.assertEqual (register + carry)
          ((register + carry) * (Scalar.twoPow check.width)⁻¹ * Scalar.twoPow check.width)
          "carry is exact").Decides True fun _ => True := by
        refine Run.Decides.check.congr (iff_true_intro ?_)
        rw [mul_assoc, mul_comm (Scalar.twoPow check.width)⁻¹, twoPow_mul_inv, mul_one]
      apply hexact.bind_total
      intro _ _
      apply (BitSplit.decides _ _).place.bind
      intro _ rangeCheck _
      exact (ih (List.cons_ne_nil next rest) (i + 1) _).bind_done fun _ _ hhigher =>
        Run.Decides.done (congrArg (List.cons _) hhigher)

/-! ## Ranges -/

theorem Sized.rangeBits_eq (h : check.Sized) :
    check.rangeBits = check.bits + 2 - check.width + 1 := by
  have hle := h.width_le
  unfold rangeBits carrySlack
  omega

/-- Half the range of a biased carry, at the weight of the next position. -/
theorem Sized.half_mul_base (h : check.Sized) :
    pow2 (check.rangeBits - 1) * pow2 check.width = pow2 (check.bits + 2) := by
  have hle := h.width_le
  rw [← pow2_add, h.rangeBits_eq, Nat.add_sub_cancel, Nat.sub_add_cancel hle]

theorem Sized.two_le_base (h : check.Sized) : 2 ≤ pow2 check.width :=
  pow2_le_pow2 (h.width_pos : 1 ≤ check.width)

theorem Sized.half_le (h : check.Sized) : pow2 (check.rangeBits - 1) ≤ pow2 251 := by
  have hbits := check.bits_le
  have hpos := h.width_pos
  have heq := h.rangeBits_eq
  unfold carrySlack maxRangeCheckBits at hbits
  exact pow2_le_pow2 (by omega)

/-- A biased carry is in range iff the carry is in the range around zero. -/
theorem Sized.biased_iff (h : check.Sized) (x : Scalar) :
    (x + check.bias).val < pow2 check.rangeBits ↔
      -(pow2 (check.rangeBits - 1) : Int) ≤ x.toInt ∧ x.toInt < pow2 (check.rangeBits - 1) := by
  have hhalf := h.half_le.trans (pow2_le_maxMagnitude (by decide))
  have hdouble : pow2 check.rangeBits = 2 * pow2 (check.rangeBits - 1) := by
    rw [h.rangeBits_eq, Nat.add_sub_cancel, pow2_succ]
  rw [hdouble]
  exact Scalar.val_add_half_lt_iff hhalf x

/-! ## Soundness -/

/-- A carry in range is exact over the integers. -/
theorem Sized.carry_exact (h : check.Sized) {register carry : Scalar}
    (hcarry : carry.toInt.natAbs ≤ pow2 (check.rangeBits - 1))
    (hnext : ((register + carry) * (Scalar.twoPow check.width)⁻¹).toInt.natAbs ≤
      pow2 (check.rangeBits - 1)) :
    ((register + carry) * (Scalar.twoPow check.width)⁻¹).toInt * pow2 check.width =
      register.toInt + carry.toInt := by
  have hbits := check.bits_le
  have hhalf := h.half_le
  have hregister := Scalar.natAbs_toInt_le register
  have hsmall : pow2 252 + maxMagnitude + pow2 251 < fieldOrder := by decide
  have hproduct : (((register + carry) * (Scalar.twoPow check.width)⁻¹).toInt *
      pow2 check.width).natAbs ≤ pow2 252 := by
    rw [Int.natAbs_mul, Int.natAbs_natCast]
    refine (Nat.mul_le_mul_right _ hnext).trans ?_
    rw [h.half_mul_base]
    unfold carrySlack maxRangeCheckBits at hbits
    exact pow2_le_pow2 (by omega)
  refine Scalar.intCast_inj_of_lt (by omega) ?_
  have hinv := twoPow_mul_inv check.width
  rw [Int.cast_mul, Scalar.intCast_toInt, Int.cast_natCast, ← Scalar.twoPow_eq_cast, Int.cast_add,
    Scalar.intCast_toInt, Scalar.intCast_toInt, mul_assoc, mul_comm (Scalar.twoPow check.width)⁻¹,
    hinv, mul_one]

/-- Registers that pass stand for zero together with the carry into them. -/
theorem Sized.total_eq_zero (h : check.Sized) {registers : Registers} (hne : registers ≠ [])
    {carry : Scalar} (hcarry : carry.toInt.natAbs ≤ pow2 (check.rangeBits - 1))
    (hpasses : check.Passes carry registers) :
    carry.toInt + Registers.total check.width registers = 0 := by
  induction registers generalizing carry with
  | nil => exact absurd rfl hne
  | cons register registers ih =>
    cases registers with
    | nil =>
      have hhalf := h.half_le
      have hregister := Scalar.natAbs_toInt_le register
      have hsmall : maxMagnitude + pow2 251 < fieldOrder := by decide
      have hzero : register.toInt + carry.toInt = 0 := by
        refine Scalar.intCast_inj_of_lt (by omega) ?_
        rw [Int.cast_add, Scalar.intCast_toInt, Scalar.intCast_toInt, hpasses, Int.cast_zero]
      rw [Registers.total_cons, Registers.total_nil]
      omega
    | cons next rest =>
      obtain ⟨hrange, hrest⟩ := hpasses
      have hbounds := (h.biased_iff _).1 hrange
      have hnext : ((register + carry) * (Scalar.twoPow check.width)⁻¹).toInt.natAbs ≤
          pow2 (check.rangeBits - 1) := by omega
      have htotal := ih (List.cons_ne_nil _ _) hnext hrest
      have hexact := h.carry_exact hcarry hnext
      rw [Registers.total_cons, ← add_assoc, add_comm carry.toInt, ← hexact, mul_comm, ← mul_add,
        htotal, mul_zero]

/-- The carries of registers that pass are exact over the integers. -/
theorem Sized.carriesOut_exact (h : check.Sized) {registers : Registers} {carry : Scalar}
    (hcarry : carry.toInt.natAbs ≤ pow2 (check.rangeBits - 1))
    (hpasses : check.Passes carry registers) {i : Nat} (hi : i + 1 < registers.length) :
    ((check.carriesOut carry registers).getD i 0).toInt * pow2 check.width =
      (registers.getD i 0).toInt + ((carry :: check.carriesOut carry registers).getD i 0).toInt := by
  induction registers generalizing carry i with
  | nil => exact absurd hi (Nat.not_lt_zero _)
  | cons register registers ih =>
    cases registers with
    | nil =>
      rw [List.length_singleton] at hi
      omega
    | cons next rest =>
      obtain ⟨hrange, hrest⟩ := hpasses
      have hbounds := (h.biased_iff _).1 hrange
      have hnext : ((register + carry) * (Scalar.twoPow check.width)⁻¹).toInt.natAbs ≤
          pow2 (check.rangeBits - 1) := by omega
      rw [carriesOut]
      cases i with
      | zero =>
        rw [List.getD_cons_zero, List.getD_cons_zero, List.getD_cons_zero]
        exact h.carry_exact hcarry hnext
      | succ i =>
        rw [List.getD_cons_succ, List.getD_cons_succ, List.getD_cons_succ]
        exact ih hnext hrest (Nat.lt_of_succ_lt_succ hi)

/-! ## Completeness -/

/-- The next carry of small registers whose total vanishes. -/
theorem Sized.carry_eq (h : check.Sized) {register carry : Scalar} {higher : Int}
    (hregister : register.toInt.natAbs < pow2 check.bits)
    (hcarry : carry.toInt.natAbs * pow2 check.width < pow2 (check.bits + 1))
    (htotal : carry.toInt + (register.toInt + pow2 check.width * higher) = 0) :
    ((register + carry) * (Scalar.twoPow check.width)⁻¹).toInt = -higher ∧
      higher.natAbs * pow2 check.width < pow2 (check.bits + 1) := by
  have hbits := check.bits_le
  have hdouble := pow2_succ check.bits
  have htwo := h.two_le_base
  have hbase : higher.natAbs * pow2 check.width = (register.toInt + carry.toInt).natAbs := by
    have heq : register.toInt + carry.toInt = -(higher * pow2 check.width) := by
      rw [mul_comm higher]
      omega
    rw [heq, Int.natAbs_neg, Int.natAbs_mul, Int.natAbs_natCast]
  have hcarry2 := Nat.mul_le_mul_left carry.toInt.natAbs htwo
  have hbound : higher.natAbs * pow2 check.width < pow2 (check.bits + 1) := by
    rw [hbase]
    omega
  refine ⟨Scalar.toInt_eq_of_cast ?_ ?_, hbound⟩
  · have hhigher := Nat.mul_le_mul_left higher.natAbs htwo
    have hmax : pow2 (check.bits + 1) ≤ maxMagnitude := by
      unfold carrySlack maxRangeCheckBits at hbits
      exact pow2_le_maxMagnitude (by omega)
    rw [Int.natAbs_neg]
    omega
  · have hsum : register + carry = ((-higher : Int) : Scalar) * Scalar.twoPow check.width := by
      have hcast : ((register.toInt + carry.toInt : Int) : Scalar) =
          ((-higher * pow2 check.width : Int) : Scalar) := by
        congr 1
        rw [neg_mul, mul_comm higher]
        omega
      rwa [Int.cast_add, Scalar.intCast_toInt, Scalar.intCast_toInt, Int.cast_mul,
        Int.cast_natCast] at hcast
    rw [hsum, mul_assoc, twoPow_mul_inv, mul_one]

/-- Registers below the bound of the check pass if they stand for zero together with the carry into
them. -/
theorem Sized.passes (h : check.Sized) {registers : Registers}
    (hregisters : ∀ r ∈ registers, r.toInt.natAbs < pow2 check.bits) {carry : Scalar}
    (hcarry : carry.toInt.natAbs * pow2 check.width < pow2 (check.bits + 1))
    (htotal : carry.toInt + Registers.total check.width registers = 0) :
    check.Passes carry registers := by
  induction registers generalizing carry with
  | nil => exact trivial
  | cons register registers ih =>
    have hregister := hregisters register List.mem_cons_self
    cases registers with
    | nil =>
      have hzero : register.toInt + carry.toInt = 0 := by
        rw [Registers.total_cons, Registers.total_nil] at htotal
        omega
      have hcast : ((register.toInt + carry.toInt : Int) : Scalar) = 0 := by
        rw [hzero, Int.cast_zero]
      rwa [Int.cast_add, Scalar.intCast_toInt, Scalar.intCast_toInt] at hcast
    | cons next rest =>
      rw [Registers.total_cons] at htotal
      obtain ⟨hnext, hbound⟩ := h.carry_eq hregister hcarry htotal
      have hhalf : (Registers.total check.width (next :: rest)).natAbs <
          pow2 (check.rangeBits - 1) := by
        refine Nat.lt_of_mul_lt_mul_right (a := pow2 check.width) ?_
        have hdouble : pow2 (check.bits + 2) = 2 * pow2 (check.bits + 1) := pow2_succ _
        rw [h.half_mul_base]
        omega
      constructor
      · rw [h.biased_iff, hnext]
        omega
      · refine ih (fun r hr => hregisters r (List.mem_cons_of_mem register hr)) ?_ ?_
        · rwa [hnext, Int.natAbs_neg]
        · rw [hnext]
          omega

/-! ## The check -/

theorem ne_nil_of_length (check : CarryCheck) {registers : Registers}
    (hlength : registers.length = check.count) : registers ≠ [] := by
  have hcount := check.two_le_count
  exact List.ne_nil_of_length_pos (by omega)

/-- Given as many registers as it asks for, a check carries through them: its range checks have bits,
and its base is a unit. -/
theorem Sized.run_eq (h : check.Sized) {registers : Registers}
    (hlength : registers.length = check.count) :
    check.component.run registers = do
      let carries ← check.carryFrom (Scalar.twoPow check.width) (Scalar.twoPow check.width)⁻¹ 0 0
        registers
      return { input := registers, carry := carries.carry, rangeChecks := carries.rangeChecks } := by
  have hinverse : Scalar.div? 1 (Scalar.twoPow check.width) =
      .ok (Scalar.twoPow check.width)⁻¹ :=
    (if_neg (Scalar.twoPow_ne_zero _)).trans (congrArg Except.ok (one_mul _))
  have hwidth : check.width < check.bits + carrySlack := Nat.lt_succ_of_le h.width_le
  refine (if_neg (not_not.2 hlength)).trans ((if_neg (Nat.not_le.2 hwidth)).trans ?_)
  exact Run.ofDomain_bind hinverse _

theorem Sized.decides (h : check.Sized) {registers : Registers}
    (hlength : registers.length = check.count) :
    (check.component.run registers).Decides (check.Passes 0 registers) fun w =>
      w.carry = check.carriesOut 0 registers := by
  rw [h.run_eq hlength]
  exact (carryFrom_decides check (check.ne_nil_of_length hlength) 0 0).bind_done fun _ _ hcarry =>
    Run.Decides.done hcarry

/-- The check starts without a carry. -/
theorem natAbs_toInt_zero_le (bound : Nat) : (0 : Scalar).toInt.natAbs ≤ bound := by
  rw [Scalar.toInt_zero]
  exact Nat.zero_le bound

theorem Sized.total_eq_zero_of_passes (h : check.Sized) {registers : Registers}
    (hlength : registers.length = check.count) (hpasses : check.Passes 0 registers) :
    Registers.total check.width registers = 0 := by
  have htotal := h.total_eq_zero (check.ne_nil_of_length hlength) (natAbs_toInt_zero_le _) hpasses
  rwa [Scalar.toInt_zero, zero_add] at htotal

/-- On small registers the check decides whether they stand for zero. -/
theorem Sized.passes_iff (h : check.Sized) {registers : Registers}
    (hlength : registers.length = check.count)
    (hregisters : ∀ r ∈ registers, r.toInt.natAbs < pow2 check.bits) :
    check.Passes 0 registers ↔ Registers.total check.width registers = 0 := by
  constructor
  · exact h.total_eq_zero_of_passes hlength
  · intro htotal
    refine h.passes hregisters ?_ (by rw [Scalar.toInt_zero, zero_add, htotal])
    rw [Scalar.toInt_zero, Int.natAbs_zero, Nat.zero_mul]
    exact pow2_pos _

theorem ofSizes?_eq {width bits count : Nat} (hbits : bits + carrySlack ≤ maxRangeCheckBits)
    (hcount : 2 ≤ count) : ofSizes? width bits count = .ok ⟨width, bits, count, hbits, hcount⟩ :=
  (dif_pos hbits).trans (dif_pos hcount)

/-- Any registers that pass stand for zero, and their carries are exact over the integers.  Registers
below the bound of the check pass if they stand for zero. -/
theorem certifies_zero (width bits count : Nat) (registers : Registers) (context : Context)
    (hwidth : 1 ≤ width) (hbits : bits ≤ 250) (hle : width ≤ bits + 2) (hcount : 2 ≤ count)
    (hlength : registers.length = count) :
    ∃ check, ofSizes? width bits count = .ok check ∧
      (∀ w, ((check.component.run registers).exec context).1 = .ok w →
        Registers.total width registers = 0 ∧ w.carry.length = count - 1 ∧
          ∀ i, i < count - 1 → (w.carry.getD i 0).toInt * 2 ^ width =
            (registers.getD i 0).toInt + ((0 :: w.carry).getD i 0).toInt) ∧
      ((∀ r ∈ registers, r.toInt.natAbs < 2 ^ bits) → Registers.total width registers = 0 →
        ∃ w, ((check.component.run registers).exec context).1 = .ok w) := by
  have hfit : bits + carrySlack ≤ maxRangeCheckBits := by
    unfold carrySlack maxRangeCheckBits
    omega
  have hsized : Sized ⟨width, bits, count, hfit, hcount⟩ := ⟨hwidth, hle⟩
  refine ⟨⟨width, bits, count, hfit, hcount⟩, ofSizes?_eq hfit hcount, ?_, ?_⟩
  · intro w hw
    obtain ⟨hpasses, hcarry⟩ := (hsized.decides hlength).of_exec_ok hw
    refine ⟨hsized.total_eq_zero_of_passes hlength hpasses, ?_, ?_⟩
    · rw [hcarry, length_carriesOut, hlength]
    · intro i hi
      rw [hcarry]
      refine hsized.carriesOut_exact (natAbs_toInt_zero_le _) hpasses ?_
      omega
  · intro hregisters htotal
    rw [(hsized.decides hlength).exec_ok_iff context]
    exact (hsized.passes_iff hlength hregisters).2 htotal

/-- Registers whose carries to base `2 ^ 16` are 5 and -3. -/
def sampleRegisters : Registers := [5 * 2 ^ 16, -3 * 2 ^ 16 - 5, 3].map Scalar.ofInt

theorem certifies_zero_sample :
    ∃ check w, ofSizes? 16 40 3 = .ok check ∧
      ((check.component.run sampleRegisters).exec (Context.ofRoot "main")).1 = .ok w ∧
      (w.carry.getD 0 0).toInt = 5 ∧ (w.carry.getD 1 0).toInt = -3 := by
  obtain ⟨check, hcheck, hsound, hcomplete⟩ := certifies_zero 16 40 3 sampleRegisters
    (Context.ofRoot "main") (by decide) (by decide) (by decide) (by decide) rfl
  obtain ⟨w, hw⟩ := hcomplete (by decide +kernel) (by decide +kernel)
  obtain ⟨_, _, hcarry⟩ := hsound w hw
  have hfirst := hcarry 0 (by decide)
  have hsecond := hcarry 1 (by decide)
  have h0 : (sampleRegisters.getD 0 0).toInt = 5 * 2 ^ 16 := by decide +kernel
  have h1 : (sampleRegisters.getD 1 0).toInt = -3 * 2 ^ 16 - 5 := by decide +kernel
  rw [h0, List.getD_cons_zero, Scalar.toInt_zero] at hfirst
  rw [h1, List.getD_cons_succ] at hsecond
  exact ⟨check, w, hcheck, hw, by omega, by omega⟩

end CarryCheck

end RsaCircuit
