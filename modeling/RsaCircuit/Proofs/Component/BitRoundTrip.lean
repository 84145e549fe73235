import RsaCircuit.Proofs.Component.Plans
set_option autoImplicit false

/-!
# Splits and joins undo each other

The weights of a split double in the field, and from 254 bits on they are reduced powers.  Joining the
bits of a split nevertheless gives the input back at every width, because a split that has a result
has split all of the representative.  The other direction needs the weights to be the powers
themselves: up to 253 bits no two bit lists of one length join to the same scalar.

A split checks its bits first and their sum last.  The bits are those of an integer, so only the last
check can fail, and a split takes all of its steps whether it has a result or not
(`BitSplit.trace_eq_plan`).
-/

namespace RsaCircuit

/-- Zeros and ones are limbs of width one. -/
theorem Limbs.inRange_one_iff (bits : List Scalar) :
    Limbs.InRange 1 bits ↔ ∀ bit ∈ bits, bit = 0 ∨ bit = 1 := by
  constructor
  · intro h bit hbit
    exact Scalar.eq_zero_or_one (h bit hbit)
  · intro h bit hbit
    rcases h bit hbit with rfl | rfl <;> decide

namespace BitSplit

/-! ## The steps of a split -/

/-- A split takes all of its steps, also if the last one fails. -/
theorem trace_eq_plan (bits : Nat) (x : Scalar) : ((component bits).run x).trace = plan bits := by
  obtain ⟨_, hok, _⟩ := (booleans_decide bits x).answers trivial
  have hrun : (component bits).run x = do
      Run.each assertBoolean (x.bits bits)
      Run.assertEqual (weightedSum 1 (x.bits bits)) x "bits add up to the input"
      return { out := x.bits bits, input := x } := rfl
  rw [hrun, Run.trace_bind, hok, (booleans_follow bits x).trace_eq_of_ok hok]
  -- nothing is checked after the sum, so it does not matter whether its check fails
  exact congrArg (_ ++ ·) (congrArg (List.cons _) (ite_self []))

theorem constraintCount_exec (bits : Nat) (x : Scalar) (context : Context) :
    (((component bits).run x).exec context).2.constraintCount =
      context.constraintCount + (bits + 1) := by
  have hcount := (Run.exec_reaches ((component bits).run x) context).constraintCount_eq
  rwa [trace_eq_plan, ← Plan.constraintCount, constraintCount_plan] at hcount

/-- An input out of range fails the last constraint. -/
theorem exec_of_le {bits : Nat} {x : Scalar} (h : pow2 bits ≤ x.val) (context : Context) :
    ∃ e, (((component bits).run x).exec context).1 = .error (.error e) ∧
      e.index = context.constraintCount + bits ∧ e.path = context.path ∧
      e.cause.description? = some "bits add up to the input" := by
  obtain ⟨e, hexec, hpath, hcause⟩ := (fails h).exec_eq context
  have hindex := Run.exec_error_index hexec
  have hcount := constraintCount_exec bits x context
  exact ⟨e, hexec, by omega, hpath, by rw [hcause]; rfl⟩

/-! ## Round trips -/

/-- Up to 253 bits the bits of a joined scalar are the bits it was joined from. -/
theorem bits_value {xs : List Scalar} (hrange : Limbs.InRange 1 xs) (hlength : xs.length ≤ 253) :
    (Limbs.value 1 xs : Scalar).bits xs.length = xs := by
  have hvalue := Limbs.value_lt 1 xs hrange
  rw [Nat.one_mul] at hvalue
  rw [Scalar.bits_eq_split, Scalar.val_natCast_of_lt (hvalue.trans (pow2_lt_fieldOrder hlength)),
    Limbs.split_value hrange]

/-- The bits of a split join to the input. -/
theorem join_bits {bits : Nat} {x : Scalar} (h : x.val < pow2 bits) :
    ((BitJoin.component bits).run (x.bits bits)).Decides True fun joined => joined.out = x := by
  refine (BitJoin.decides (Scalar.length_bits bits x)).weaken fun _ joined hjoined => ?_
  rw [hjoined, ← weightedSum_one]
  exact (weightedSum_bits_iff bits x).2 h

/-- A split has a result iff the representative of its input has no more bits, and the result is these
bits, which join to the input again.  It checks one constraint more than it has bits in any case, and
if it fails, the last one is the one that fails.  Up to 253 bits a split also gives back the bits that
its input was joined from. -/
theorem inverts_join :
    (∀ (bits : Nat) (x : Scalar) (context : Context),
      let result := ((component bits).run x).exec context
      ((∃ w, result.1 = .ok w) ↔ x.val < 2 ^ bits) ∧
        (∀ w, result.1 = .ok w → w.out.length = bits ∧
          (∀ i < bits, w.out.getD i 0 = if x.val.testBit i then 1 else 0) ∧
          ∃ joined, (((BitJoin.component bits).run w.out).exec result.2).1 = .ok joined ∧
            joined.out = x) ∧
        result.2.constraintCount = context.constraintCount + (bits + 1) ∧
        (¬ x.val < 2 ^ bits → ∃ e, result.1 = .error (.error e) ∧
          e.index = context.constraintCount + bits ∧ e.path = context.path ∧
          e.cause.description? = some "bits add up to the input")) ∧
    ∀ (bits : Nat) (xs : List Scalar) (context : Context), bits ≤ 253 → xs.length = bits →
      (∀ x ∈ xs, x = 0 ∨ x = 1) →
      let joining := ((BitJoin.component bits).run xs).exec context
      ∃ joined w, joining.1 = .ok joined ∧
        (((component bits).run joined.out).exec joining.2).1 = .ok w ∧ w.out = xs := by
  refine ⟨fun bits x context => ?_, fun bits xs context hbits hlength hxs => ?_⟩
  · intro result
    have hdecides := decides bits x
    refine ⟨hdecides.exec_ok_iff context, fun w hw => ?_, constraintCount_exec bits x context,
      fun hnot => exec_of_le (Nat.le_of_not_lt hnot) context⟩
    obtain ⟨hlt, rfl⟩ := hdecides.of_exec_ok hw
    refine ⟨Scalar.length_bits bits x, fun i hi => Scalar.getD_bits hi x, ?_⟩
    have hjoin := join_bits hlt
    obtain ⟨joined, hjoined⟩ := (hjoin.exec_ok_iff result.2).2 trivial
    exact ⟨joined, hjoined, (hjoin.of_exec_ok hjoined).2⟩
  · intro joining
    have hrange := (Limbs.inRange_one_iff xs).2 hxs
    have hjoin := BitJoin.decides hlength
    obtain ⟨joined, hjoined⟩ := (hjoin.exec_ok_iff context).2 trivial
    have hout : joined.out = (Limbs.value 1 xs : Scalar) := by
      rw [(hjoin.of_exec_ok hjoined).2]
    have hbitsOut : joined.out.bits bits = xs := by
      rw [hout, ← hlength]
      exact bits_value hrange (hlength.trans_le hbits)
    have hfits : joined.out.val < pow2 bits := by
      rw [← weightedSum_bits_iff, hbitsOut, weightedSum_one, hout]
    have hsplit := decides bits joined.out
    obtain ⟨w, hw⟩ := (hsplit.exec_ok_iff joining.2).2 hfits
    refine ⟨joined, w, hjoined, hw, ?_⟩
    rw [(hsplit.of_exec_ok hw).2]
    exact hbitsOut

/-- Minus one needs 254 bits, and at that width, where the weights exceed the field, its bits still
join to it. -/
theorem inverts_join_sample :
    let split := fun bits x context => ((component bits).run x).exec context
    let main := Context.ofRoot "main"
    (∃ e, (split 253 (-1) main).1 = .error (.error e) ∧ e.index = 253) ∧
      (∃ w joined, (split 254 (-1) main).1 = .ok w ∧
        (((BitJoin.component 254).run w.out).exec (split 254 (-1) main).2).1 = .ok joined ∧
        joined.out = -1) ∧
      ∃ joined w, (((BitJoin.component 4).run [0, 1, 1, 0]).exec main).1 = .ok joined ∧
        (split 4 joined.out (((BitJoin.component 4).run [0, 1, 1, 0]).exec main).2).1 = .ok w ∧
        w.out = [0, 1, 1, 0] := by
  intro split main
  obtain ⟨hsplits, hjoins⟩ := inverts_join
  obtain ⟨_, _, _, hfails⟩ := hsplits 253 (-1) main
  obtain ⟨hiff, hok, _⟩ := hsplits 254 (-1) main
  refine ⟨?_, ?_, hjoins 4 [0, 1, 1, 0] main (by decide) rfl (by decide)⟩
  · obtain ⟨e, he, hindex, _⟩ := hfails (by decide +kernel)
    exact ⟨e, he, hindex.trans rfl⟩
  · obtain ⟨w, hw⟩ := hiff.2 (by decide +kernel)
    obtain ⟨_, _, joined, hjoined, hout⟩ := hok w hw
    exact ⟨w, joined, hw, hjoined, hout⟩

end BitSplit

end RsaCircuit
