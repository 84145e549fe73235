import RsaCircuit.Proofs.Component.ModularPower
import RsaCircuit.Proofs.Component.Plans
set_option autoImplicit false

/-!
# Plans of modular products and powers

A product takes the same steps for all factors, as long as the modulus is not zero: the division that
finds quotient and remainder checks nothing, and cutting the quotient to the limbs of the layout makes
its range check as long as that of every other big integer.  A power is a fixed number of products.
-/

namespace RsaCircuit

namespace ModularProduct

open Limbs

/-- Range checks of factors, quotient and remainder, and the carry check. -/
def plan (layout : Layout) : Plan :=
  let rangePlan := fun label => BitSplit.eachPlan layout.limbBits label layout.limbCount
  rangePlan "range_a" ++ (rangePlan "range_b" ++ (rangePlan "range_q" ++ (rangePlan "range_r" ++
    (CarryCheck.ofLayout layout).component.placePlan (CarryCheck.ofLayout layout).plan "t_check")))

/-- Number of constraints of a product. -/
def constraintCount (layout : Layout) : Nat :=
  4 * layout.limbCount * (layout.limbBits + 1) +
    (2 * layout.limbCount - 2) * (layout.limbBits + bitLength layout.limbCount + 7) + 1

theorem constraintCount_plan (layout : Layout) :
    (plan layout).constraintCount = constraintCount layout := by
  have hcount : (CarryCheck.ofLayout layout).count - 1 = 2 * layout.limbCount - 2 := by
    change 2 * layout.limbCount - 1 - 1 = _
    omega
  have hrange : (CarryCheck.ofLayout layout).rangeBits + 2 =
      layout.limbBits + bitLength layout.limbCount + 7 := by
    change 2 * layout.limbBits + bitLength layout.limbCount + 2 + 3 - layout.limbBits + 2 = _
    omega
  simp only [plan, Plan.constraintCount_append, BitSplit.constraintCount_eachPlan,
    Component.constraintCount_placePlan, CarryCheck.constraintCount_plan, hcount, hrange,
    constraintCount]
  ring

/-- Number of signals of a product. -/
def signalCount (layout : Layout) : Nat :=
  6 * layout.limbCount + 3 * layout.productLength +
    4 * (layout.limbCount * (layout.limbBits + 1)) + (CarryCheck.ofLayout layout).signalCount

section Follows

variable {product : ModularProduct} {values modulus : List Scalar} {input : Input}

/-- A division that has a result takes no steps. -/
theorem divide_follows (hvalues : values.length = product.layout.productLength)
    {division : Division} (h : (product.divide values modulus).outcome = .ok division) :
    (product.divide values modulus).Follows [] fun _ => True := by
  rw [divide_eq hvalues] at h ⊢
  obtain ⟨_, _, h⟩ := Run.outcome_bind_eq_ok.1 h
  obtain ⟨result, hresult, _⟩ := Run.outcome_bind_eq_ok.1 h
  refine (Run.Follows.reports _).bind_done fun _ _ => ?_
  refine (Run.Follows.ofArithmetic hresult).bind_done fun result _ => ?_
  split
  · exact .note (.done trivial)
  · exact .done trivial

/-- The range checks of a product. -/
def preparePlan (layout : Layout) : Plan :=
  let rangePlan := fun label => BitSplit.eachPlan layout.limbBits label layout.limbCount
  rangePlan "range_a" ++ (rangePlan "range_b" ++ (rangePlan "range_q" ++ rangePlan "range_r"))

/-- Quotient and remainder have the layout's number of limbs, and so have the range checks. -/
structure Prepared.Counts (layout : Layout) (prepared : Prepared) : Prop where
  quotient : prepared.division.quotient.length = layout.limbCount
  remainder : prepared.division.remainder.length = layout.limbCount
  leftRange : (prepared.leftRange.flatMap BitSplit.Witness.signals).length =
    layout.limbCount * (layout.limbBits + 1)
  rightRange : (prepared.rightRange.flatMap BitSplit.Witness.signals).length =
    layout.limbCount * (layout.limbBits + 1)
  quotientRange : (prepared.quotientRange.flatMap BitSplit.Witness.signals).length =
    layout.limbCount * (layout.limbBits + 1)
  remainderRange : (prepared.remainderRange.flatMap BitSplit.Witness.signals).length =
    layout.limbCount * (layout.limbBits + 1)

theorem prepare_follows (hshape : input.Shaped product.layout)
    (hmodulus : InRange product.layout.limbBits input.modulus)
    (hne : value product.layout.limbBits input.modulus ≠ 0) :
    (product.prepare input).Follows (preparePlan product.layout)
      (Prepared.Counts product.layout) := by
  refine (BitSplit.each_follows _ "range_a" hshape.left).bind fun leftRange hleft => ?_
  refine (BitSplit.each_follows _ "range_b" hshape.right).bind fun rightRange hright => ?_
  have hdivide := divide_factors_decides hshape hleft.1 hright.1 hmodulus
  obtain ⟨division, hdivision, _⟩ := hdivide.answers hne
  have hfollows := divide_follows (length_productValues product input) hdivision
  refine (hfollows.and_decides hdivide).nil_bind fun division hdiv => ?_
  have hdivided := hdiv.2.2
  refine (BitSplit.each_follows _ "range_q" hdivided.length_quotient).bind
    fun quotientRange hquotient => ?_
  refine (BitSplit.each_follows _ "range_r" hdivided.length_remainder).bind_done
    fun remainderRange hremainder => .done ?_
  exact ⟨hdivided.length_quotient, hdivided.length_remainder, hleft.2, hright.2, hquotient.2,
    hremainder.2⟩

theorem length_signals_witness (hshape : input.Shaped product.layout) {prepared : Prepared}
    (hprepared : prepared.Counts product.layout) {carryCheck : CarryCheck.Witness}
    (hcarry : carryCheck.signals.length = (CarryCheck.ofLayout product.layout).signalCount) :
    (product.witness input prepared carryCheck).signals.length = signalCount product.layout := by
  simp only [witness, Witness.signals, List.length_flatten, List.map_cons, List.map_nil,
    List.sum_cons, List.sum_nil, length_residualValues, length_productValues, length_divisionValues,
    hshape.left, hshape.right, hshape.modulus, hprepared.quotient, hprepared.remainder,
    hprepared.leftRange, hprepared.rightRange, hprepared.quotientRange, hprepared.remainderRange,
    hcarry, signalCount]
  ring

theorem follows (hshape : input.Shaped product.layout)
    (hmodulus : InRange product.layout.limbBits input.modulus)
    (hne : value product.layout.limbBits input.modulus ≠ 0) :
    (product.component.run input).Follows (plan product.layout) fun w =>
      w.signals.length = signalCount product.layout := by
  have hplan : plan product.layout = preparePlan product.layout ++
      (CarryCheck.ofLayout product.layout).component.placePlan
        (CarryCheck.ofLayout product.layout).plan "t_check" := by
    simp only [plan, preparePlan, List.append_assoc]
  rw [run_eq_multiply hshape, multiply_eq, hplan]
  refine (prepare_follows hshape hmodulus hne).bind fun prepared hprepared => ?_
  have hlength := length_residualRegisters product input prepared.division
  refine ((CarryCheck.sized_ofLayout product.layout).follows hlength).place.bind_done
    fun carryCheck hcarry => .done ?_
  exact length_signals_witness hshape hprepared hcarry

end Follows

end ModularProduct

namespace ModularPower

open Limbs

variable {product : ModularProduct} {base modulus : Limbs}

/-- Squarings under the labels from position `i` on. -/
def squarePlan (product : ModularProduct) : Nat → Nat → Plan
  | _, 0 => []
  | i, count + 1 =>
    product.component.placePlan (ModularProduct.plan product.layout) s!"doublers[{i}]" ++
      squarePlan product (i + 1) count

def plan (product : ModularProduct) : Plan :=
  squarePlan product 0 squarings ++
    product.component.placePlan (ModularProduct.plan product.layout) "adder"

theorem constraintCount_squarePlan (product : ModularProduct) (count i : Nat) :
    (squarePlan product i count).constraintCount =
      count * ModularProduct.constraintCount product.layout := by
  induction count generalizing i with
  | zero => rw [Nat.zero_mul]; rfl
  | succ count ih =>
    rw [squarePlan, Plan.constraintCount_append, Component.constraintCount_placePlan,
      ModularProduct.constraintCount_plan, ih, Nat.succ_mul, Nat.add_comm]

theorem constraintCount_plan (product : ModularProduct) :
    (plan product).constraintCount = 17 * ModularProduct.constraintCount product.layout := by
  have hsquarings : squarings = 16 := by decide
  rw [plan, Plan.constraintCount_append, constraintCount_squarePlan,
    Component.constraintCount_placePlan, ModularProduct.constraintCount_plan, hsquarings]
  omega

def signalCount (layout : Layout) : Nat :=
  3 * layout.limbCount + (squarings + 1) * ModularProduct.signalCount layout

/-- A product is a big integer of the layout and has as many signals as every other. -/
structure ProductCounts (layout : Layout) (w : ModularProduct.Witness) : Prop where
  out : w.out.length = layout.limbCount
  signals : w.signals.length = ModularProduct.signalCount layout

/-- A modulus that products can be reduced by. -/
structure Divisor (layout : Layout) (modulus : Limbs) : Prop where
  inRange : InRange layout.limbBits modulus
  length_eq : modulus.length = layout.limbCount
  ne_zero : value layout.limbBits modulus ≠ 0

theorem product_follows {left right : Limbs} (hleft : left.length = product.layout.limbCount)
    (hright : right.length = product.layout.limbCount)
    (hmodulus : Divisor product.layout modulus) :
    (product.component.run ⟨left, right, modulus⟩).Follows (ModularProduct.plan product.layout)
      (ProductCounts product.layout) := by
  have hshape : (⟨left, right, modulus⟩ : ModularProduct.Input).Shaped product.layout :=
    ⟨hleft, hright, hmodulus.length_eq⟩
  refine ((ModularProduct.follows hshape hmodulus.inRange hmodulus.ne_zero).and_decides
    (ModularProduct.decides _ hshape hmodulus.inRange)).weaken fun w hw => ?_
  exact ⟨hw.2.2.length_out, hw.1⟩

theorem squareFrom_follows (hmodulus : Divisor product.layout modulus) (count i : Nat)
    {power : Limbs} (hpower : power.length = product.layout.limbCount) :
    (squareFrom product modulus i count power).Follows (squarePlan product i count)
      fun squares => squares.length = count ∧ ∀ w ∈ squares, ProductCounts product.layout w := by
  induction count generalizing i power with
  | zero => exact .done ⟨rfl, by simp⟩
  | succ count ih =>
    refine (product_follows hpower hpower hmodulus).place.bind fun square hsquare => ?_
    refine (ih (i + 1) hsquare.out).bind_done fun squares hsquares => .done ?_
    exact ⟨congrArg (· + 1) hsquares.1, List.forall_mem_cons.2 ⟨hsquare, hsquares.2⟩⟩

theorem follows (hbase : base.length = product.layout.limbCount)
    (hmodulus : Divisor product.layout modulus) :
    ((component product).run ⟨base, modulus⟩).Follows (plan product) fun w =>
      w.signals.length = signalCount product.layout ∧
        w.out.length = product.layout.limbCount := by
  refine (squareFrom_follows hmodulus squarings 0 hbase).bind fun squares hsquares => ?_
  have hpower : ((squares.getLast?.map (·.out)).getD base).length = product.layout.limbCount := by
    cases hlast : squares.getLast? with
    | none => exact hbase
    | some square => exact (hsquares.2 square (List.mem_of_getLast? hlast)).out
  refine (product_follows hpower hbase hmodulus).place.bind_done fun last hlast => ?_
  refine .note (.done ⟨?_, hlast.out⟩)
  simp only [Witness.signals, List.length_flatten, List.map_cons, List.map_nil, List.sum_cons,
    List.sum_nil, hlast.out, hbase, hmodulus.length_eq, hlast.signals,
    length_flatMap_const fun w hw => (hsquares.2 w hw).signals, hsquares.1, signalCount]
  ring

end ModularPower

end RsaCircuit
