import RsaCircuit.Proofs.Component.CarryCheck
import RsaCircuit.Proofs.Component.LimbComparison
import RsaCircuit.Proofs.Run.Plan
set_option autoImplicit false

/-!
# Plans of the elementary components

Splits, joins, tests, comparisons and carry checks take steps that depend on their widths and on the
number of their inputs alone, and their witnesses have as many signals as these say.
-/

namespace RsaCircuit

/-- Parts of one length. -/
theorem length_flatMap_const {α : Type} {f : α → List Scalar} {xs : List α} {length : Nat}
    (h : ∀ x ∈ xs, (f x).length = length) : (xs.flatMap f).length = xs.length * length := by
  induction xs with
  | nil => rw [List.length_nil, Nat.zero_mul]; rfl
  | cons x xs ih =>
    rw [List.flatMap_cons, List.length_append, h x List.mem_cons_self,
      ih fun y hy => h y (List.mem_cons_of_mem x hy), List.length_cons, Nat.succ_mul, Nat.add_comm]

/-! ## Bits -/

namespace BitSplit

def plan (bits : Nat) : Plan :=
  Plan.repeated bits (Plan.check "bit is boolean") ++ Plan.check "bits add up to the input"

@[simp] theorem constraintCount_plan (bits : Nat) : (plan bits).constraintCount = bits + 1 := by
  simp [plan]

theorem booleans_follow (bits : Nat) (x : Scalar) :
    (Run.each assertBoolean (x.bits bits)).Follows
      (Plan.repeated bits (Plan.check "bit is boolean")) fun _ => True := by
  have heach : (Run.each assertBoolean (x.bits bits)).Follows
      (Plan.repeated (x.bits bits).length (Plan.check "bit is boolean")) fun _ => True :=
    Run.Follows.each (fun _ => rfl) _
  rwa [Scalar.length_bits] at heach

theorem follows (bits : Nat) (x : Scalar) :
    ((component bits).run x).Follows (plan bits) fun w => w.out.length = bits :=
  (booleans_follow bits x).bind fun _ _ => Run.Follows.assertEqual.bind_done fun _ _ =>
    .done (Scalar.length_bits bits x)

theorem length_signals {bits : Nat} {w : Witness} (h : w.out.length = bits) :
    w.signals.length = bits + 1 := by
  rw [Witness.signals, List.length_append, h, List.length_singleton]

theorem length_flatMap_signals {bits : Nat} {ws : List Witness}
    (h : ∀ w ∈ ws, w.out.length = bits) :
    (ws.flatMap Witness.signals).length = ws.length * (bits + 1) :=
  length_flatMap_const fun w hw => length_signals (h w hw)

/-- Splits of limbs are their range check. -/
def eachPlan (bits : Nat) (label : String) (count : Nat) : Plan :=
  (component bits).placeEachPlan (plan bits) label count

@[simp] theorem constraintCount_eachPlan (bits : Nat) (label : String) (count : Nat) :
    (eachPlan bits label count).constraintCount = count * (bits + 1) := by
  rw [eachPlan, Component.constraintCount_placeEachPlan, constraintCount_plan]

theorem each_follows (bits : Nat) (label : String) {xs : Limbs} {count : Nat}
    (hlength : xs.length = count) :
    ((component bits).placeEach label xs).Follows (eachPlan bits label count) fun ws =>
      Limbs.InRange bits xs ∧ (ws.flatMap Witness.signals).length = count * (bits + 1) := by
  have heach := Run.Follows.placeEach label fun x (_ : x ∈ xs) => follows bits x
  rw [hlength] at heach
  refine (heach.and_decides (decides_each _ _ _)).weaken fun ws hws => ⟨hws.2.1, ?_⟩
  rw [length_flatMap_signals hws.1.2, hws.1.1]

end BitSplit

theorem BitJoin.follows {bits : Nat} {input : List Scalar} (h : input.length = bits) :
    ((component bits).run input).Follows [] fun w => w.signals.length = bits + 1 := by
  have hrun : (component bits).run input =
      (pure { out := weightedSum 1 input, input } : Run Witness) := if_pos h
  rw [hrun]
  exact .done (congrArg (· + 1) h)

/-! ## Tests and gates -/

def ZeroTest.plan : Plan := Plan.check "input * out == 0"

theorem ZeroTest.follows (x : Scalar) : (component.run x).Follows plan fun _ => True :=
  Run.Follows.assertEqual.bind_done fun _ _ => .done trivial

def EqualityTest.plan : Plan := ZeroTest.component.placePlan ZeroTest.plan "is_zero"

theorem EqualityTest.follows (left right : Scalar) :
    (component.run (left, right)).Follows plan fun _ => True :=
  (ZeroTest.follows _).place.bind_done fun _ _ => .done trivial

theorem Gate.follows (gate : Gate) (left right : Scalar) :
    (gate.component.run (left, right)).Follows [] fun _ => True := .done trivial

theorem ZeroTest.length_signals (w : ZeroTest.Witness) : w.signals.length = 3 := rfl

theorem EqualityTest.length_signals (w : EqualityTest.Witness) : w.signals.length = 6 := rfl

theorem Gate.length_signals (w : Gate.Witness) : w.signals.length = 3 := rfl

/-! ## Comparisons -/

namespace Comparison

def plan (comparison : Comparison) : Plan :=
  (BitSplit.component (comparison.bits + 1)).placePlan (BitSplit.plan (comparison.bits + 1)) "n2b"

theorem follows (comparison : Comparison) (left right : Scalar) :
    (comparison.component.run (left, right)).Follows comparison.plan fun w =>
      w.signals.length = comparison.bits + 5 := by
  refine (BitSplit.follows _ _).place.bind_done fun split hsplit => ?_
  have htop : comparison.bits < split.out.length := hsplit.symm ▸ Nat.lt_succ_self _
  rw [Run.ofDomain_bind (elementAt?_of_lt htop 0)]
  refine .done ?_
  rw [Witness.signals, List.length_append, BitSplit.length_signals hsplit]
  exact Nat.add_comm 3 _

end Comparison

namespace LimbComparison

/-- The gates for the positions from `i` up. -/
def foldPlan : Nat → Nat → Plan
  | _, 0 => []
  | _, 1 => []
  | i, count + 2 =>
    foldPlan (i + 1) (count + 1) ++
      (Gate.and.component.placePlan [] s!"ands[{i}]" ++
        (Gate.and.component.placePlan [] s!"eq_ands[{i}]" ++
          Gate.or.component.placePlan [] s!"ors[{i}]"))

@[simp] theorem constraintCount_foldPlan (count i : Nat) :
    (foldPlan i count).constraintCount = 0 := by
  induction count generalizing i with
  | zero => rfl
  | succ count ih =>
    cases count with
    | zero => rfl
    | succ count => simp [foldPlan, ih]

/-- One gate of each kind per limb but one. -/
structure Suffix.Counts (suffix : Suffix) (count : Nat) : Prop where
  ors : suffix.ors.length = count
  ands : suffix.ands.length = count
  equalAnds : suffix.equalAnds.length = count

theorem fold_follows {answers : List (Scalar × Scalar)} (hne : answers ≠ []) (i : Nat) :
    (fold i answers).Follows (foldPlan i answers.length) fun suffix =>
      suffix.Counts (answers.length - 1) := by
  induction answers generalizing i with
  | nil => exact absurd rfl hne
  | cons answer rest ih =>
    cases rest with
    | nil => exact .done ⟨rfl, rfl, rfl⟩
    | cons higher rest =>
      refine (ih (List.cons_ne_nil higher rest) (i + 1)).bind fun above habove => ?_
      refine (Gate.follows .and _ _).place.bind fun and _ => ?_
      refine (Gate.follows .and _ _).place.bind fun equalAnd _ => ?_
      refine (Gate.follows .or _ _).place.bind_done fun or _ => .done ?_
      exact ⟨congrArg (· + 1) habove.ors, congrArg (· + 1) habove.ands,
        congrArg (· + 1) habove.equalAnds⟩

def plan (layout : Layout) : Plan :=
  (limbComparison layout).component.placeEachPlan (limbComparison layout).plan "lt"
      layout.limbCount ++
    (EqualityTest.component.placeEachPlan EqualityTest.plan "eq" layout.limbCount ++
      foldPlan 0 layout.limbCount)

theorem constraintCount_plan (layout : Layout) :
    (plan layout).constraintCount = layout.limbCount * (layout.limbBits + 3) := by
  simp only [plan, Comparison.plan, EqualityTest.plan, ZeroTest.plan, limbComparison,
    Plan.constraintCount_append, Component.constraintCount_placeEachPlan,
    Component.constraintCount_placePlan, BitSplit.constraintCount_plan,
    Plan.constraintCount_check, constraintCount_foldPlan]
  ring

def signalCount (layout : Layout) : Nat :=
  1 + layout.limbCount + layout.limbCount + layout.limbCount * (layout.limbBits + 5) +
    layout.limbCount * 6 + 3 * ((layout.limbCount - 1) * 3)

theorem follows (layout : Layout) {left right : Limbs} (hleft : left.length = layout.limbCount)
    (hright : right.length = layout.limbCount) :
    ((component layout).run (left, right)).Follows (plan layout) fun w =>
      w.signals.length = signalCount layout := by
  have hpairs := length_pairs hleft hright
  have hcomparisons := Run.Follows.placeEach "lt" fun pair (_ : pair ∈ left.zip right) =>
    (limbComparison layout).follows pair.1 pair.2
  have hequalities := Run.Follows.placeEach "eq" fun pair (_ : pair ∈ left.zip right) =>
    EqualityTest.follows pair.1 pair.2
  rw [hpairs] at hcomparisons hequalities
  rw [run_eq layout hleft hright]
  refine hcomparisons.bind fun comparisons hcomp => ?_
  refine hequalities.bind fun equalities heq => ?_
  have hlengths : (comparisons.map (·.out)).length = (equalities.map (·.out)).length := by
    rw [List.length_map, List.length_map, hcomp.1, heq.1]
  have hanswers : ((comparisons.map (·.out)).zip (equalities.map (·.out))).length =
      layout.limbCount := by
    rw [List.length_zip, ← hlengths, Nat.min_self, List.length_map, hcomp.1]
  have hne : (comparisons.map (·.out)).zip (equalities.map (·.out)) ≠ [] := by
    have htwo := layout.two_le_limbCount
    exact List.ne_nil_of_length_pos (by omega)
  rw [Run.ofDomain_bind (zip?_of_length hlengths)]
  have hfold := fold_follows hne 0
  rw [hanswers] at hfold
  refine hfold.bind_done fun suffix hsuffix => .done ?_
  have hgates : ∀ gates : List Gate.Witness, (gates.flatMap Gate.Witness.signals).length =
      gates.length * 3 := fun gates => length_flatMap_const fun w _ => Gate.length_signals w
  simp only [Witness.signals, List.length_flatten, List.map_cons, List.map_nil, List.sum_cons,
    List.sum_nil, List.length_singleton, hleft, hright, length_flatMap_const hcomp.2,
    length_flatMap_const fun w (_ : w ∈ equalities) => EqualityTest.length_signals w, hcomp.1,
    heq.1, hgates, hsuffix.ors, hsuffix.ands, hsuffix.equalAnds, signalCount, limbComparison]
  ring

end LimbComparison

/-! ## Carries -/

namespace CarryCheck

/-- The checks of the registers from position `i` up. -/
def carryPlan (check : CarryCheck) : Nat → Nat → Plan
  | _, 0 => []
  | _, 1 => Plan.check "last register cancels the final carry"
  | i, count + 2 =>
    Plan.check "carry is exact" ++
      ((BitSplit.component check.rangeBits).placePlan (BitSplit.plan check.rangeBits)
          s!"carry_range_checks[{i}]" ++
        check.carryPlan (i + 1) (count + 1))

theorem constraintCount_carryPlan (check : CarryCheck) (count i : Nat) :
    (check.carryPlan i (count + 1)).constraintCount = count * (check.rangeBits + 2) + 1 := by
  induction count generalizing i with
  | zero => rw [Nat.zero_mul]; rfl
  | succ count ih =>
    simp only [carryPlan, Plan.constraintCount_append, Plan.constraintCount_check,
      Component.constraintCount_placePlan, BitSplit.constraintCount_plan, ih]
    ring

/-- One carry per register but the last, each with its range check. -/
structure Carries.Counts (check : CarryCheck) (count : Nat) (carries : Carries) : Prop where
  carry : carries.carry.length = count
  rangeChecks : carries.rangeChecks.length = count
  out : ∀ w ∈ carries.rangeChecks, w.out.length = check.rangeBits

theorem carryFrom_follows (check : CarryCheck) (base inverse : Scalar) {registers : List Scalar}
    (hne : registers ≠ []) (i : Nat) (carry : Scalar) :
    (check.carryFrom base inverse i carry registers).Follows (check.carryPlan i registers.length)
      (Carries.Counts check (registers.length - 1)) := by
  induction registers generalizing i carry with
  | nil => exact absurd rfl hne
  | cons register rest ih =>
    cases rest with
    | nil => exact Run.Follows.assertEqual.bind_done fun _ _ => .done ⟨rfl, rfl, by simp⟩
    | cons next rest =>
      refine Run.Follows.assertEqual.bind fun _ _ => ?_
      refine (BitSplit.follows _ _).place.bind fun rangeCheck hcheck => ?_
      refine (ih (List.cons_ne_nil next rest) (i + 1) _).bind_done fun higher hhigher => .done ?_
      exact ⟨congrArg (· + 1) hhigher.carry, congrArg (· + 1) hhigher.rangeChecks,
        List.forall_mem_cons.2 ⟨hcheck, hhigher.out⟩⟩

def plan (check : CarryCheck) : Plan := check.carryPlan 0 check.count

theorem constraintCount_plan (check : CarryCheck) :
    check.plan.constraintCount = (check.count - 1) * (check.rangeBits + 2) + 1 := by
  have htwo := check.two_le_count
  have hsucc : check.count = check.count - 1 + 1 := by omega
  rw [plan, hsucc, constraintCount_carryPlan, Nat.add_sub_cancel]

def signalCount (check : CarryCheck) : Nat :=
  check.count + (check.count - 1) + (check.count - 1) * (check.rangeBits + 1)

theorem Sized.follows {check : CarryCheck} (h : check.Sized) {registers : List Scalar}
    (hlength : registers.length = check.count) :
    (check.component.run registers).Follows check.plan fun w =>
      w.signals.length = check.signalCount := by
  have hcarries := check.carryFrom_follows (Scalar.twoPow check.width)
    (Scalar.twoPow check.width)⁻¹ (check.ne_nil_of_length hlength) 0 0
  rw [hlength] at hcarries
  rw [h.run_eq hlength]
  refine hcarries.bind_done fun carries hcounts => .done ?_
  simp only [Witness.signals, List.length_flatten, List.map_cons, List.map_nil, List.sum_cons,
    List.sum_nil, hlength, hcounts.carry, BitSplit.length_flatMap_signals hcounts.out,
    hcounts.rangeChecks, signalCount]
  omega

end CarryCheck

end RsaCircuit
