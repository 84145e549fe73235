import RsaCircuit.Proofs.Component.ModularProduct
import RsaCircuit.Proofs.Limbs.Guarded
set_option autoImplicit false

/-!
# Products modulo anything

The modulus of a product is not range checked, so its limbs may lie anywhere in the field.  Range
checks and the carry check decide their conditions for all scalars, and on limbs of the layout's number
no guard on lengths refuses anything (`divide_eq`, `multiply_eq`).  That leaves the divisors of the
division, and they can be misused for moduli whose leading limb, zeros left out, is minus one, once
both factors have passed their range checks; every other product ends with a result or with the error
of a constraint (`misuse_exact`).
-/

namespace RsaCircuit

namespace ModularProduct

open Limbs

variable {product : ModularProduct} {input : Input} {values modulus : Limbs} {m : Misuse}

theorem divide_eq_misuse_iff (hvalues : values.length = product.layout.productLength) :
    (product.divide values modulus).outcome = .error (.misuse m) ↔
      m = .zeroDivisor ∧ LedBy (-1) modulus := by
  rw [← @divide?_eq_misuse_iff product.layout.limbBits m product.layout.limbCount
    (product.normalizedProduct values), divide_eq hvalues]
  constructor
  · intro h
    obtain ⟨_, _, h⟩ := (Run.Decides.reports _).bind_eq_misuse_iff.1 h
    rcases Run.outcome_bind_eq_misuse_iff.1 h with h | ⟨division, _, h⟩
    · rwa [Run.outcome_ofArithmetic, mapError_map_eq_misuse_iff] at h
    · -- after the division there is only a report
      split at h <;> cases h
  · intro h
    obtain ⟨_, hreports, _⟩ := (Run.Decides.reports (Event.ofDivisor modulus)).answers trivial
    refine (Run.Decides.reports _).bind_eq_misuse_iff.2 ⟨_, hreports, ?_⟩
    refine Run.outcome_bind_eq_misuse_iff.2 (Or.inl ?_)
    rwa [Run.outcome_ofArithmetic, mapError_map_eq_misuse_iff]

/-- Range checks decide their conditions, so the division alone can be misused before the carry check,
and it is reached iff both factors are in range. -/
theorem prepare_eq_misuse_iff :
    (product.prepare input).outcome = .error (.misuse m) ↔
      InRange product.layout.limbBits input.left ∧ InRange product.layout.limbBits input.right ∧
        m = .zeroDivisor ∧ LedBy (-1) input.modulus := by
  have hdivide := @divide_eq_misuse_iff product (product.productValues input) input.modulus m
    (length_productValues product input)
  constructor
  · intro h
    obtain ⟨_, hleft, h⟩ := (BitSplit.decides_each _ _ _).bind_eq_misuse_iff.1 h
    obtain ⟨_, hright, h⟩ := (BitSplit.decides_each _ _ _).bind_eq_misuse_iff.1 h
    refine ⟨((BitSplit.decides_each _ _ _).of_ok hleft).1,
      ((BitSplit.decides_each _ _ _).of_ok hright).1, ?_⟩
    obtain h | ⟨division, _, h⟩ := Run.outcome_bind_eq_misuse_iff.1 h
    · exact hdivide.1 h
    · obtain ⟨_, _, h⟩ := (BitSplit.decides_each _ _ _).bind_eq_misuse_iff.1 h
      obtain ⟨_, _, h⟩ := (BitSplit.decides_each _ _ _).bind_eq_misuse_iff.1 h
      cases h
  · rintro ⟨hleft, hright, hmisuse⟩
    obtain ⟨_, hleftOk, _⟩ := (BitSplit.decides_each product.layout.limbBits "range_a" _).answers hleft
    obtain ⟨_, hrightOk, _⟩ :=
      (BitSplit.decides_each product.layout.limbBits "range_b" _).answers hright
    refine (BitSplit.decides_each _ _ _).bind_eq_misuse_iff.2 ⟨_, hleftOk, ?_⟩
    refine (BitSplit.decides_each _ _ _).bind_eq_misuse_iff.2 ⟨_, hrightOk, ?_⟩
    exact Run.outcome_bind_eq_misuse_iff.2 (Or.inl (hdivide.2 hmisuse))

/-- The carry check is never misused: it is meant for the layout, and the residual has as many
registers as it asks for. -/
theorem multiply_eq_misuse_iff :
    (product.multiply input).outcome = .error (.misuse m) ↔
      InRange product.layout.limbBits input.left ∧ InRange product.layout.limbBits input.right ∧
        m = .zeroDivisor ∧ LedBy (-1) input.modulus := by
  rw [multiply_eq, ← prepare_eq_misuse_iff, Run.outcome_bind_eq_misuse_iff]
  refine or_iff_left ?_
  rintro ⟨prepared, _, h⟩
  have hcheck := ((CarryCheck.sized_ofLayout product.layout).decides
    (length_residualRegisters product input prepared.division)).place.bind_eq_misuse_iff.1 h
  obtain ⟨_, _, h⟩ := hcheck
  cases h

/-- For limbs of the layout's number and anywhere in the field, a product is misused iff both factors
are in range and the modulus is led by minus one; every other product ends with a result or with the
error of a constraint.  No divisor of the division is zero, whatever its operands, but the successor
of a leading limb of minus one, and no limb or part of a list that it reads is missing: with a guard
before every quotient, remainder and reading the division does what it does without, and the guards
refuse the divisors led by minus one only. -/
theorem misuse_exact (layout : Layout) (left right modulus : Limbs) (context : Context)
    (hleft : left.length = layout.limbCount) (hright : right.length = layout.limbCount)
    (hmodulus : modulus.length = layout.limbCount) :
    let result := (((ofLayout layout).component.run ⟨left, right, modulus⟩).exec context).1
    let misused := InRange layout.limbBits left ∧ InRange layout.limbBits right ∧ LedBy (-1) modulus
    (misused → result = .error (.misuse .zeroDivisor)) ∧
      (¬ misused → (∃ w, result = .ok w) ∨ ∃ e, result = .error (.error e)) ∧
      ∀ extra a b,
        Guarded.divide? layout.limbBits extra a b = divide? layout.limbBits extra a b ∧
          ((∃ m, Guarded.divide? layout.limbBits extra a b = .error (.misuse m)) ↔
            LedBy (-1) b) := by
  intro result misused
  have hshape : (⟨left, right, modulus⟩ : Input).Shaped (ofLayout layout).layout :=
    ⟨hleft, hright, hmodulus⟩
  have hresult : ∀ m, result = .error (.misuse m) ↔ m = .zeroDivisor ∧ misused := by
    intro m
    change (((ofLayout layout).component.run _).exec context).1 = _ ↔ _
    rw [run_eq_multiply hshape, Run.exec_eq_misuse_iff, multiply_eq_misuse_iff]
    exact ⟨fun ⟨hl, hr, hm, hled⟩ => ⟨hm, hl, hr, hled⟩,
      fun ⟨hm, hl, hr, hled⟩ => ⟨hl, hr, hm, hled⟩⟩
  refine ⟨fun h => (hresult _).2 ⟨rfl, h⟩, fun h => ?_, fun extra a b => ⟨?_, ?_⟩⟩
  · cases hcase : result with
    | ok w => exact Or.inl ⟨w, rfl⟩
    | error stop =>
      cases stop with
      | error e => exact Or.inr ⟨e, rfl⟩
      | misuse m => exact absurd ((hresult m).1 hcase).2 h
  · exact Guarded.divide?_eq _ extra a b
  · rw [Guarded.divide?_eq]
    constructor
    · rintro ⟨m, h⟩
      exact ((divide?_eq_misuse_iff extra a b).1 h).2
    · intro h
      exact ⟨.zeroDivisor, (divide?_eq_misuse_iff extra a b).2 ⟨rfl, h⟩⟩

/-- A modulus led by minus one, and one that has minus one further down only. -/
theorem misuse_exact_sample :
    let layout : Layout := ⟨16, 4, by decide, by decide, by decide⟩
    let result := fun modulus => (((ofLayout layout).component.run
      ⟨[5, 5, 5, 5], [3, 3, 3, 3], modulus⟩).exec (Context.ofRoot "main")).1
    result [7, -2, -1, 0] = .error (.misuse .zeroDivisor) ∧
      ((∃ w, result [7, -1, -2, 0] = .ok w) ∨ ∃ e, result [7, -1, -2, 0] = .error (.error e)) := by
  intro layout result
  have hexact := fun modulus => misuse_exact layout [5, 5, 5, 5] [3, 3, 3, 3] modulus
    (Context.ofRoot "main") rfl rfl
  have hleft : InRange layout.limbBits [5, 5, 5, 5] := by decide
  have hright : InRange layout.limbBits [3, 3, 3, 3] := by decide
  constructor
  · exact (hexact _ rfl).1 ⟨hleft, hright, [7, -2], 1, rfl⟩
  · refine (hexact _ rfl).2.1 fun ⟨_, _, hled⟩ => ?_
    have hlast := (getLast?_trim_eq_some_iff (neg_ne_zero.2 one_ne_zero)).2 hled
    exact absurd hlast (by decide)

/-- For four limbs of 16 bits and a modulus of minus one in the top limb there is neither a result nor
the error of a constraint. -/
theorem minus_one_modulus_misused : ∃ layout, Layout.ofSizes? 16 4 = .ok layout ∧
    let result := (((ofLayout layout).component.run
      ⟨[5, 5, 5, 5], [3, 3, 3, 3], [0, 0, 0, -1]⟩).exec (Context.ofRoot "main")).1
    (¬ ∃ w, result = .ok w) ∧ ¬ ∃ e, result = .error (.error e) := by
  refine ⟨⟨16, 4, by decide, by decide, by decide⟩, rfl, ?_⟩
  intro result
  have hresult : result = .error (.misuse .zeroDivisor) := by
    rw [Run.exec_eq_misuse_iff, run_eq_multiply ⟨rfl, rfl, rfl⟩, multiply_eq_misuse_iff]
    exact ⟨by decide, by decide, rfl, [0, 0, 0], 0, rfl⟩
  rw [hresult]
  exact ⟨fun ⟨_, h⟩ => (nomatch h), fun ⟨_, h⟩ => (nomatch h)⟩

end ModularProduct

end RsaCircuit
