import RsaCircuit.Limbs.Basic
import RsaCircuit.Polynomial.Coefficients
set_option autoImplicit false

/-!
# Registers: limbs before carrying

A product of big integers leaves one register per position, each a signed integer of many bits.
`normalize` brings registers into limbs of a given width that stand for the same integer.  Every
register is cut into signed pieces of one limb each, the pieces that fall on one position are summed,
and the sums are settled from the least significant position up.  Settling rounds toward minus
infinity, so every limb ends up in `[0, 2 ^ width)` even where a sum is negative, and a carry out of
the last position is dropped.
-/

namespace RsaCircuit

/-- Signed limbs before carrying, least significant first. -/
abbrev Registers := List Scalar

namespace Registers

/-- The lowest `count` pieces of a register, each with the register's sign and of at most `width`
bits. -/
def pieces (width count : Nat) (register : Scalar) : List Scalar :=
  (List.range count).map fun j =>
    let piece :=
      (Scalar.ofNat (register.magnitude.val >>> (width * j))).intMod (Scalar.twoPow width)
    if register.isNegative then -piece else piece

/-- Sums lists of `count` pieces, each list one position above the one before it. -/
def overlay (count : Nat) : List (List Scalar) → Registers
  | [] => List.replicate count 0
  | lowest :: higher => Coefficients.add lowest (0 :: overlay count higher)

/-- Splits `x` into a digit and a carry, with the carry rounded toward minus infinity. -/
def floorSplit (base x : Scalar) : Scalar × Scalar :=
  if x.isNegative then
    let low := (-x).intMod base
    let high := -((-x).intDiv base)
    if low = 0 then (low, high) else (base - low, high - 1)
  else (x.intMod base, x.intDiv base)

/-- Leaves a digit in each position and carries the rest into the next one. -/
def settle (base : Scalar) : Scalar → Registers → Limbs
  | _, [] => []
  | carry, register :: registers =>
    let (low, high) := floorSplit base (carry + register)
    low :: settle base high registers

/-- The limbs of registers of at most `bits` bits: as many as there are registers and as a register
has pieces.  Registers of no bits are limbs already. -/
def normalize (bits width : Nat) (registers : Registers) : Limbs :=
  if bits = 0 then registers
  else
    let count := piecesFor bits width
    settle (Scalar.twoPow width) 0 (overlay count (registers.map (pieces width count)))

/-- The same for a width that may be zero: then registers cannot be cut.  The base that pieces and
sums are divided by must not be zero either. -/
def normalize? (bits width : Nat) (registers : Registers) : Except Misuse Limbs :=
  if bits ≠ 0 ∧ (width = 0 ∨ Scalar.twoPow width = 0) then .error .zeroDivisor
  else .ok (normalize bits width registers)

@[simp] theorem length_pieces (width count : Nat) (register : Scalar) :
    (pieces width count register).length = count := by simp [pieces]

@[simp] theorem length_settle (base carry : Scalar) (registers : Registers) :
    (settle base carry registers).length = registers.length := by
  induction registers generalizing carry with
  | nil => rfl
  | cons register registers ih => simp [settle, ih]

end Registers

end RsaCircuit
