import RsaCircuit.Scalar.Signed
set_option autoImplicit false

/-!
# Limbs: big integers as little-endian lists of scalars

Limbs of a given width are digits to base `2 ^ width`, least significant first.  `Limbs.value` is
the integer they stand for and `Limbs.ofNat?` the limbs of an integer.  A limb is a scalar and may
well be `2 ^ width` or more; the operations are defined on all limbs, and `Limbs.InRange` names the
limbs that are proper digits.

Two limb lists of different lengths are compared and added as if the shorter one went on with zeros.
-/

namespace RsaCircuit

/-- Why an operation on big integers has no result. -/
inductive ArithmeticError where
  | divisionByZero
  | overflow (bits limbBits limbCount : Nat)
  deriving DecidableEq, Repr, Inhabited

namespace ArithmeticError

def message : ArithmeticError → String
  | divisionByZero => "division by a zero divisor"
  | overflow bits limbBits limbCount =>
    s!"a {bits}-bit value does not fit into {limbCount} limbs of {limbBits} bits"

end ArithmeticError

/-- Limbs, least significant first. -/
abbrev Limbs := List Scalar

namespace Limbs

/-! ## Value -/

/-- The integer that limbs of the given width stand for. -/
def value (width : Nat) : Limbs → Nat
  | [] => 0
  | x :: xs => x.val + pow2 width * value width xs

/-- Every limb is a digit to base `2 ^ width`. -/
def InRange (width : Nat) (xs : Limbs) : Prop := ∀ x ∈ xs, x.val < pow2 width

instance (width : Nat) (xs : Limbs) : Decidable (InRange width xs) :=
  inferInstanceAs (Decidable (∀ x ∈ xs, x.val < pow2 width))

@[simp] theorem value_nil (width : Nat) : value width [] = 0 := rfl

@[simp] theorem value_cons (width : Nat) (x : Scalar) (xs : Limbs) :
    value width (x :: xs) = x.val + pow2 width * value width xs := rfl

theorem value_append (width : Nat) (xs ys : Limbs) :
    value width (xs ++ ys) = value width xs + pow2 (width * xs.length) * value width ys := by
  induction xs with
  | nil => simp
  | cons x xs ih =>
    simp only [List.cons_append, value_cons, ih, List.length_cons, Nat.mul_add, Nat.mul_one,
      pow2_add, Nat.add_assoc]
    rw [← Nat.mul_assoc (pow2 width), Nat.mul_comm (pow2 width) (pow2 (width * xs.length))]

@[simp] theorem inRange_nil (width : Nat) : InRange width [] := by simp [InRange]

theorem inRange_cons (width : Nat) (x : Scalar) (xs : Limbs) :
    InRange width (x :: xs) ↔ x.val < pow2 width ∧ InRange width xs := by simp [InRange]

theorem value_lt (width : Nat) (xs : Limbs) (h : InRange width xs) :
    value width xs < pow2 (width * xs.length) := by
  induction xs with
  | nil => exact pow2_pos _
  | cons x xs ih =>
    obtain ⟨hx, hxs⟩ := (inRange_cons width x xs).1 h
    have hle : value width xs + 1 ≤ pow2 (width * xs.length) := ih hxs
    calc x.val + pow2 width * value width xs
        < pow2 width + pow2 width * value width xs := Nat.add_lt_add_right hx _
      _ = pow2 width * (value width xs + 1) := by rw [Nat.mul_add, Nat.mul_one, Nat.add_comm]
      _ ≤ pow2 width * pow2 (width * xs.length) := Nat.mul_le_mul_left _ hle
      _ = pow2 (width * (xs.length + 1)) := by
        rw [Nat.mul_add, Nat.mul_one, pow2_add, Nat.mul_comm]

/-! ## Encoding -/

/-- The lowest `count` digits of `v` to base `2 ^ width`. -/
def split (width : Nat) : Nat → Nat → Limbs
  | 0, _ => []
  | count + 1, v => Scalar.ofNat (v % pow2 width) :: split width count (v / pow2 width)

/-- The limbs of `v`, if `count` limbs hold it. -/
def ofNat? (width count v : Nat) : Except ArithmeticError Limbs :=
  if bitLength v ≤ width * count then .ok (split width count v)
  else .error (.overflow (bitLength v) width count)

@[simp] theorem length_split (width count v : Nat) : (split width count v).length = count := by
  induction count generalizing v with
  | zero => rfl
  | succ count ih => simp [split, ih]

/-! ## Length -/

/-- Exactly `length` limbs: longer lists are cut, shorter ones go on with zeros. -/
def resize : Nat → Limbs → Limbs
  | 0, _ => []
  | length + 1, xs => xs.headD 0 :: resize length xs.tail

/-- Drops the zero limbs at the most significant end. -/
def trim : Limbs → Limbs
  | [] => []
  | x :: xs =>
    match trim xs with
    | [] => if x = 0 then [] else [x]
    | high => x :: high

/-- Pairs the limbs of both lists up to the length of the longer one. -/
def align : Limbs → Limbs → List (Scalar × Scalar)
  | [], ys => ys.map fun y => (0, y)
  | x :: xs, ys => (x, ys.headD 0) :: align xs ys.tail

@[simp] theorem length_resize (length : Nat) (xs : Limbs) : (resize length xs).length = length := by
  induction length generalizing xs with
  | zero => rfl
  | succ length ih => simp [resize, ih]

theorem length_align (xs ys : Limbs) : (align xs ys).length = max xs.length ys.length := by
  induction xs generalizing ys with
  | nil => simp [align]
  | cons x xs ih =>
    cases ys with
    | nil => simp [align, ih]
    | cons y ys => simp only [align, List.length_cons, ih, List.tail_cons]; omega

theorem value_trim (width : Nat) (xs : Limbs) : value width (trim xs) = value width xs := by
  induction xs with
  | nil => rfl
  | cons x xs ih =>
    rw [trim]
    split
    · next h =>
      rw [h] at ih
      split
      · next hx => subst hx; simp [← ih]
      · simp [← ih]
    · simp [ih]

end Limbs

end RsaCircuit
