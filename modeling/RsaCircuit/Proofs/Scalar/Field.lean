import Mathlib.Algebra.Field.ZMod
import Mathlib.FieldTheory.Finite.Basic
import Mathlib.Tactic.Ring
import RsaCircuit.Proofs.Scalar.Prime
import RsaCircuit.Scalar.Signed
set_option autoImplicit false

/-!
# Scalars form a field

Reading a scalar as a residue class (`Scalar.toZMod`) respects every operation, so the scalars form
a commutative ring of characteristic `fieldOrder`.  The inverse is a power, and that it inverts is
Fermat's theorem for the prime `fieldOrder`.

Congruence arguments end in one of two lemmas.  `Scalar.val_natCast_of_lt` says that an integer below
the field order is its own representative, and `Scalar.natCast_inj_of_lt` that two such integers are
equal if their scalars are.
-/

namespace RsaCircuit

instance : Fact fieldOrder.Prime := ⟨fieldOrder_prime⟩

namespace Scalar

/-! ## Residue classes -/

/-- The residue class of a scalar. -/
def toZMod (x : Scalar) : ZMod fieldOrder := x.val

theorem toZMod_injective : Function.Injective toZMod := by
  intro x y h
  have hval : x.val % fieldOrder = y.val % fieldOrder :=
    (ZMod.natCast_eq_natCast_iff' x.val y.val fieldOrder).1 h
  rw [Nat.mod_eq_of_lt x.isLt, Nat.mod_eq_of_lt y.isLt] at hval
  exact ext_val hval

@[simp] theorem toZMod_ofNat (n : Nat) : (ofNat n).toZMod = n := ZMod.natCast_mod n fieldOrder

theorem toZMod_zero : (0 : Scalar).toZMod = 0 := Nat.cast_zero

theorem toZMod_one : (1 : Scalar).toZMod = 1 := Nat.cast_one

theorem toZMod_add (x y : Scalar) : (x + y).toZMod = x.toZMod + y.toZMod := by
  rw [toZMod, val_add, ZMod.natCast_mod, Nat.cast_add]
  rfl

theorem toZMod_mul (x y : Scalar) : (x * y).toZMod = x.toZMod * y.toZMod := by
  rw [toZMod, val_mul, ZMod.natCast_mod, Nat.cast_mul]
  rfl

theorem toZMod_neg (x : Scalar) : (-x).toZMod = -x.toZMod := by
  rw [toZMod, val_neg, ZMod.natCast_mod, Nat.cast_sub (Nat.le_of_lt x.isLt), ZMod.natCast_self,
    zero_sub]
  rfl

theorem toZMod_sub (x y : Scalar) : (x - y).toZMod = x.toZMod - y.toZMod := by
  rw [toZMod, val_sub, ZMod.natCast_mod, Nat.cast_add, Nat.cast_sub (Nat.le_of_lt y.isLt),
    ZMod.natCast_self, zero_sub, ← sub_eq_add_neg]
  rfl

theorem toZMod_powDigits (count : Nat) (x : Scalar) (e : Nat) (h : e < 2 ^ count) :
    (powDigits count x e).toZMod = x.toZMod ^ e := by
  induction count generalizing x e with
  | zero =>
    have he : e = 0 := by simpa using h
    rw [powDigits, he, pow_zero, toZMod_one]
  | succ count ih =>
    have hhalf : e / 2 < 2 ^ count := by rw [pow_succ] at h; omega
    have hrest : (powDigits count (x * x) (e / 2)).toZMod = x.toZMod ^ (2 * (e / 2)) := by
      rw [ih _ _ hhalf, toZMod_mul, ← pow_two, ← pow_mul]
    rw [powDigits]
    split
    · next hodd =>
      have he : 2 * (e / 2) + 1 = e := by omega
      rw [toZMod_mul, hrest, ← pow_succ', he]
    · next heven =>
      have he : 2 * (e / 2) = e := by omega
      rw [hrest, he]

theorem toZMod_pow (x : Scalar) (e : Nat) : (x.pow e).toZMod = x.toZMod ^ e :=
  toZMod_powDigits _ x e (lt_pow2_bitLength e)

theorem toZMod_ofInt (z : Int) : (ofInt z).toZMod = z := by
  unfold ofInt
  split
  · next hneg =>
    have hz : z = -(z.natAbs : Int) := by omega
    rw [toZMod_neg, toZMod_ofNat]
    conv_rhs => rw [hz, Int.cast_neg, Int.cast_natCast]
  · next hnonneg =>
    have hz : z = (z.natAbs : Int) := by omega
    rw [toZMod_ofNat]
    conv_rhs => rw [hz, Int.cast_natCast]

/-! ## The ring -/

instance : NatCast Scalar := ⟨ofNat⟩

instance : IntCast Scalar := ⟨ofInt⟩

instance : Pow Scalar Nat := ⟨pow⟩

instance : SMul Nat Scalar := ⟨fun n x => ofNat n * x⟩

instance : SMul Int Scalar := ⟨fun z x => ofInt z * x⟩

instance : CommRing Scalar :=
  toZMod_injective.commRing toZMod toZMod_zero toZMod_one toZMod_add toZMod_mul toZMod_neg toZMod_sub
    (fun n x => by
      change (ofNat n * x).toZMod = _
      rw [toZMod_mul, toZMod_ofNat, nsmul_eq_mul])
    (fun z x => by
      change (ofInt z * x).toZMod = _
      rw [toZMod_mul, toZMod_ofInt, zsmul_eq_mul])
    toZMod_pow toZMod_ofNat toZMod_ofInt

theorem val_natCast_of_lt {n : Nat} (h : n < fieldOrder) : (n : Scalar).val = n :=
  Nat.mod_eq_of_lt h

@[simp] theorem natCast_val (x : Scalar) : (x.val : Scalar) = x := ofNat_val x

theorem val_sub_of_le {x y : Scalar} (h : y.val ≤ x.val) : (x - y).val = x.val - y.val := by
  have hx := x.isLt
  have hy := y.isLt
  rw [val_sub, show x.val + (fieldOrder - y.val) = x.val - y.val + fieldOrder by omega,
    Nat.add_mod_right, Nat.mod_eq_of_lt (by omega)]

theorem natCast_inj_of_lt {m n : Nat} (hm : m < fieldOrder) (hn : n < fieldOrder)
    (h : (m : Scalar) = n) : m = n := by
  rw [← val_natCast_of_lt hm, ← val_natCast_of_lt hn, h]

theorem intCast_eq_zero_iff (z : Int) : (z : Scalar) = 0 ↔ (fieldOrder : Int) ∣ z := by
  rw [← ZMod.intCast_zmod_eq_zero_iff_dvd z fieldOrder, ← toZMod_injective.eq_iff, toZMod_zero,
    ← toZMod_ofInt]
  rfl

theorem twoPow_eq (n : Nat) : twoPow n = 2 ^ n := by
  change ((2 ^ n : Nat) : Scalar) = 2 ^ n
  push_cast
  rfl

theorem twoPow_eq_cast (n : Nat) : twoPow n = (pow2 n : Scalar) := rfl

/-! ## The field -/

theorem mul_inv_cancel_of_ne_zero {x : Scalar} (h : x ≠ 0) : x * x⁻¹ = 1 := by
  apply toZMod_injective
  have hne : x.toZMod ≠ 0 := fun h0 => h (toZMod_injective (h0.trans toZMod_zero.symm))
  have hexp : fieldOrder - 2 + 1 = fieldOrder - 1 := by decide
  rw [toZMod_mul, inv_def, toZMod_pow, ← pow_succ', hexp, ZMod.pow_card_sub_one_eq_one hne,
    toZMod_one]

theorem inv_zero_eq : (0 : Scalar)⁻¹ = 0 := by
  apply toZMod_injective
  rw [inv_def, toZMod_pow, toZMod_zero, zero_pow (by decide)]

instance : Nontrivial Scalar := ⟨0, 1, by decide⟩

instance : Field Scalar where
  mul_inv_cancel _ := mul_inv_cancel_of_ne_zero
  inv_zero := inv_zero_eq
  nnqsmul := _
  nnqsmul_def := fun _ _ => rfl
  qsmul := _
  qsmul_def := fun _ _ => rfl

theorem two_ne_zero' : (2 : Scalar) ≠ 0 := by decide

theorem twoPow_ne_zero (n : Nat) : twoPow n ≠ 0 := by
  rw [twoPow_eq]
  exact pow_ne_zero n two_ne_zero'

end Scalar

end RsaCircuit
