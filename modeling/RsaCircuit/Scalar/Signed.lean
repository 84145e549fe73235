import RsaCircuit.Scalar.Basic
set_option autoImplicit false

/-!
# Scalars as signed integers

The upper half of the field stands for the negative integers: a scalar whose canonical
representative exceeds `(fieldOrder - 1) / 2` is read as minus its negation.  Sign, signed reading,
signed order and signed text all follow this one convention.  Subtraction with borrow and the
carrying of registers depend on it, because they decide by sign.
-/

namespace RsaCircuit

namespace Scalar

/-- Whether the scalar lies in the upper half of the field. -/
def isNegative (x : Scalar) : Bool := decide ((fieldOrder - 1) / 2 < x.val)

/-- The absolute value of the signed reading, as a scalar. -/
def magnitude (x : Scalar) : Scalar := if x.isNegative then -x else x

/-- The signed reading. -/
def toInt (x : Scalar) : Int := if x.isNegative then -((-x).val : Int) else (x.val : Int)

/-- The scalar that an integer of any size is congruent to. -/
def ofInt (z : Int) : Scalar := if z < 0 then -ofNat z.natAbs else ofNat z.natAbs

/-- Compares signed readings: signs decide, and scalars of one sign stand in canonical order. -/
def signedCompare (x y : Scalar) : Ordering :=
  match x.isNegative, y.isNegative with
  | false, true => .gt
  | true, false => .lt
  | _, _ => compare x.val y.val

/-- Decimal text of the signed reading. -/
def text (x : Scalar) : String :=
  if x.isNegative then s!"-{(-x).val}" else toString x.val

instance : ToString Scalar := ⟨text⟩

@[simp] theorem signedCompare_self (x : Scalar) : x.signedCompare x = .eq := by
  unfold signedCompare
  cases x.isNegative <;> simp

end Scalar

end RsaCircuit
