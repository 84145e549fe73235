import RsaCircuit.Limbs.Basic
set_option autoImplicit false

/-!
# Limbs: sum, multiple, difference and order

Addition and multiplication by a scalar both produce *columns*, one scalar per position, and
propagate the carries from the least significant column up: the digit left in a column is its
integer remainder by the base and the carry into the next one its integer quotient.  Subtraction
borrows instead, and decides by the signed order of scalars whether it has to.

The base is the scalar `2 ^ width`, so these rules also say what happens to limbs out of range and
for widths beyond the field.
-/

namespace RsaCircuit

namespace Limbs

/-! ## Sum and multiple -/

/-- Turns columns into digits: each digit is what the column and the carry into it leave by the
base.  The carry out of the last column is one more digit. -/
def propagate (base : Scalar) : Scalar → List Scalar → Limbs
  | carry, [] => [carry]
  | carry, column :: columns =>
    (column + carry).intMod base :: propagate base ((column + carry).intDiv base) columns

/-- The sum, one limb longer than the longer operand. -/
def add (width : Nat) (a b : Limbs) : Limbs :=
  propagate (Scalar.twoPow width) 0 ((align a b).map fun (x, y) => x + y)

/-- The multiple by a scalar, one limb longer than the operand. -/
def scale (width : Nat) (factor : Scalar) (b : Limbs) : Limbs :=
  propagate (Scalar.twoPow width) 0 (b.map (factor * ·))

@[simp] theorem length_propagate (base carry : Scalar) (columns : List Scalar) :
    (propagate base carry columns).length = columns.length + 1 := by
  induction columns generalizing carry with
  | nil => rfl
  | cons column columns ih => simp [propagate, ih]

theorem length_add (width : Nat) (a b : Limbs) :
    (add width a b).length = max a.length b.length + 1 := by
  simp [add, length_align]

@[simp] theorem length_scale (width : Nat) (factor : Scalar) (b : Limbs) :
    (scale width factor b).length = b.length + 1 := by
  simp [scale]

/-! ## Difference -/

/-- Subtracts from the least significant limb up, with a borrow into the first one.  A limb borrows
from the next one iff it is below what is taken from it, in signed order. -/
def subBorrow (base : Scalar) : Bool → Limbs → Limbs → Limbs
  | _, [], _ => []
  | borrow, x :: xs, ys =>
    let taken := ys.headD 0 + Scalar.ofBool borrow
    let short := x.signedCompare taken == .lt
    (if short then base + x - taken else x - taken) :: subBorrow base short xs ys.tail

/-- The difference, with as many limbs as `a`.  A borrow out of the last limb is dropped, so the
difference stands for `a - b` only if that is not negative. -/
def sub (width : Nat) (a b : Limbs) : Limbs := subBorrow (Scalar.twoPow width) false a b

@[simp] theorem length_subBorrow (base : Scalar) (borrow : Bool) (a b : Limbs) :
    (subBorrow base borrow a b).length = a.length := by
  induction a generalizing borrow b with
  | nil => rfl
  | cons x xs ih => simp [subBorrow, ih]

@[simp] theorem length_sub (width : Nat) (a b : Limbs) : (sub width a b).length = a.length := by
  simp [sub]

/-! ## Order -/

/-- Compares from the most significant limb down, each limb as a signed integer; the first
difference decides. -/
def compare (a b : Limbs) : Ordering :=
  (align a b).foldr (fun (x, y) above => above.then (x.signedCompare y)) .eq

/-- Whether `a` stands above `b`. -/
def exceeds (a b : Limbs) : Bool := compare a b == .gt

end Limbs

end RsaCircuit
