import RsaCircuit.Digits
import RsaCircuit.Fault
set_option autoImplicit false

/-!
# Scalars: the prime field a circuit computes in

A signal of the circuit is a scalar: an integer modulo `fieldOrder`, the order of the scalar field
of the curve BN254.  A scalar is stored as its canonical representative in `[0, fieldOrder)`, so
equality of scalars is equality of naturals.

Beside field arithmetic a circuit's witness needs the *integer* quotient and remainder of canonical
representatives (`intDiv`, `intMod`).  The checked forms `div?`, `intDiv?` and `intMod?` refuse a
zero divisor; the plain ones answer zero, respectively the dividend, and are meant for divisors that
are known to be nonzero.
-/

namespace RsaCircuit

/-- The order of the scalar field of the curve BN254, a prime of 254 bits. -/
def fieldOrder : Nat :=
  21888242871839275222246405745257275088548364400416034343698204186575808495617

theorem fieldOrder_pos : 0 < fieldOrder := by decide

/-- Width of a scalar in bits. -/
def fieldBits : Nat := bitLength fieldOrder

/-- An integer modulo `fieldOrder`, as its canonical representative. -/
structure Scalar where
  val : Nat
  isLt : val < fieldOrder
  deriving DecidableEq, Repr

namespace Scalar

theorem ext_val {x y : Scalar} (h : x.val = y.val) : x = y := by
  cases x; cases y; simp_all

/-! ## Embeddings -/

/-- The scalar that `n` is congruent to. -/
def ofNat (n : Nat) : Scalar := ⟨n % fieldOrder, Nat.mod_lt n fieldOrder_pos⟩

@[simp] theorem val_ofNat (n : Nat) : (ofNat n).val = n % fieldOrder := rfl

theorem ofNat_val (x : Scalar) : ofNat x.val = x := ext_val (Nat.mod_eq_of_lt x.isLt)

instance : Zero Scalar := ⟨ofNat 0⟩

instance : One Scalar := ⟨ofNat 1⟩

instance : Inhabited Scalar := ⟨0⟩

@[simp] theorem val_zero : (0 : Scalar).val = 0 := rfl

@[simp] theorem val_one : (1 : Scalar).val = 1 := rfl

/-- A truth value as the scalar 1 or 0. -/
def ofBool (b : Bool) : Scalar := if b then 1 else 0

/-- The scalar `2 ^ n`.  For `n` of at least 254 this is the reduced power. -/
def twoPow (n : Nat) : Scalar := ofNat (pow2 n)

/-! ## Field arithmetic -/

instance : Add Scalar := ⟨fun x y => ofNat (x.val + y.val)⟩

instance : Neg Scalar := ⟨fun x => ofNat (fieldOrder - x.val)⟩

instance : Sub Scalar := ⟨fun x y => ofNat (x.val + (fieldOrder - y.val))⟩

instance : Mul Scalar := ⟨fun x y => ofNat (x.val * y.val)⟩

theorem val_add (x y : Scalar) : (x + y).val = (x.val + y.val) % fieldOrder := rfl

theorem val_neg (x : Scalar) : (-x).val = (fieldOrder - x.val) % fieldOrder := rfl

theorem val_sub (x y : Scalar) : (x - y).val = (x.val + (fieldOrder - y.val)) % fieldOrder := rfl

theorem val_mul (x y : Scalar) : (x * y).val = x.val * y.val % fieldOrder := rfl

/-- Raises `x` to the power given by the lowest `count` binary digits of `e`. -/
def powDigits : Nat → Scalar → Nat → Scalar
  | 0, _, _ => 1
  | count + 1, x, e =>
    let rest := powDigits count (x * x) (e / 2)
    if e % 2 = 1 then x * rest else rest

/-- The power `x ^ e`, by squaring along the binary digits of `e`. -/
def pow (x : Scalar) (e : Nat) : Scalar := powDigits (bitLength e) x e

/-- The multiplicative inverse of a nonzero scalar, and zero for zero: in a field of prime order `p`
the power `x ^ (p - 2)` is both. -/
instance : Inv Scalar := ⟨fun x => x.pow (fieldOrder - 2)⟩

instance : Div Scalar := ⟨fun x y => x * y⁻¹⟩

theorem inv_def (x : Scalar) : x⁻¹ = x.pow (fieldOrder - 2) := rfl

/-- The inverse, which zero does not have. -/
def inverse? (x : Scalar) : Option Scalar := if x = 0 then none else some x⁻¹

/-- The sum of a list of scalars. -/
def sum (xs : List Scalar) : Scalar := xs.foldr (· + ·) 0

/-- The product of a list of scalars. -/
def product (xs : List Scalar) : Scalar := xs.foldr (· * ·) 1

/-! ## Integer quotient and remainder -/

/-- The quotient of the canonical representatives, rounded down. -/
def intDiv (x y : Scalar) : Scalar :=
  ⟨x.val / y.val, Nat.lt_of_le_of_lt (Nat.div_le_self _ _) x.isLt⟩

/-- The remainder of the canonical representatives. -/
def intMod (x y : Scalar) : Scalar :=
  ⟨x.val % y.val, Nat.lt_of_le_of_lt (Nat.mod_le _ _) x.isLt⟩

@[simp] theorem val_intDiv (x y : Scalar) : (x.intDiv y).val = x.val / y.val := rfl

@[simp] theorem val_intMod (x y : Scalar) : (x.intMod y).val = x.val % y.val := rfl

/-- Applies an operation whose second argument must not be zero. -/
def withDivisor (op : Scalar → Scalar → Scalar) (x y : Scalar) : Except Misuse Scalar :=
  if y = 0 then .error .zeroDivisor else .ok (op x y)

/-- The field quotient. -/
def div? : Scalar → Scalar → Except Misuse Scalar := withDivisor (· / ·)

/-- The integer quotient. -/
def intDiv? : Scalar → Scalar → Except Misuse Scalar := withDivisor intDiv

/-- The integer remainder. -/
def intMod? : Scalar → Scalar → Except Misuse Scalar := withDivisor intMod

/-! ## Canonical order and notation -/

/-- Scalars in the order of their canonical representatives. -/
instance : Ord Scalar := ⟨fun x y => compare x.val y.val⟩

/-- The canonical representative in lower-case hexadecimal. -/
def hex (x : Scalar) : String := hexText x.val

/-- The canonical representative as a 64-bit word, if it is one. -/
def toUInt64? (x : Scalar) : Option UInt64 := word64? x.val

end Scalar

end RsaCircuit
