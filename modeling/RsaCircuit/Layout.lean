import RsaCircuit.Digits
set_option autoImplicit false

/-!
# Layouts: how the circuit splits big integers

A layout fixes the width and the number of the limbs of every big integer in a circuit.  A modular
product leaves residual registers of up to `carryBits` bits, and the carry check range checks their
carries with `carrySlack` bits to spare.  A layout is admitted if these range checks fit into the
field, so that no sum the circuit forms can wrap.

Sizes are naturals: that twice the width of a limb or the width of a big integer may exceed a machine
word is outside the model.
-/

namespace RsaCircuit

/-- Bits by which a carry's range check is wider than the carry needs. -/
def carrySlack : Nat := 3

/-- The widest range check that is sound in a field of 254 bits. -/
def maxRangeCheckBits : Nat := 253

/-- Why a layout is refused. -/
inductive LayoutError where
  | tooFewLimbs (limbCount : Nat)
  | emptyLimbs
  | fieldOverflow (limbBits limbCount required available : Nat)
  | tooSmallForPadding (totalBits required : Nat)
  deriving DecidableEq, Repr, Inhabited

namespace LayoutError

def message : LayoutError → String
  | tooFewLimbs limbCount => s!"at least two limbs are required, got {limbCount}"
  | emptyLimbs => "limbs must be at least one bit wide"
  | fieldOverflow limbBits limbCount required available =>
    s!"{limbCount} limbs of {limbBits} bits need {required}-bit carries, " ++
      s!"at most {available} fit into the field"
  | tooSmallForPadding totalBits required =>
    s!"{totalBits} bits cannot hold a padded SHA-256 signature, {required} are needed"

end LayoutError

/-- Bits of the registers of a modular product with limbs of the given width and number. -/
def residualBits (limbBits limbCount : Nat) : Nat := 2 * limbBits + bitLength limbCount + 2

/-- Width and number of the limbs of every big integer in a circuit. -/
structure Layout where
  limbBits : Nat
  limbCount : Nat
  two_le_limbCount : 2 ≤ limbCount
  limbBits_pos : 0 < limbBits
  /-- The carries of a modular product can be range checked. -/
  carries_fit : residualBits limbBits limbCount + carrySlack ≤ maxRangeCheckBits
  deriving DecidableEq, Repr

namespace Layout

/-- The layout with the given sizes, if they are admitted. -/
def ofSizes? (limbBits limbCount : Nat) : Except LayoutError Layout :=
  if two_le_limbCount : 2 ≤ limbCount then
    if limbBits_pos : 0 < limbBits then
      if carries_fit : residualBits limbBits limbCount + carrySlack ≤ maxRangeCheckBits then
        .ok { limbBits, limbCount, two_le_limbCount, limbBits_pos, carries_fit }
      else
        .error (.fieldOverflow limbBits limbCount (residualBits limbBits limbCount + carrySlack)
          maxRangeCheckBits)
    else .error .emptyLimbs
  else .error (.tooFewLimbs limbCount)

/-- The widest layout with 32 limbs, of 121 bits each.  It holds moduli of up to 3872 bits. -/
def standard : Layout where
  limbBits := 121
  limbCount := 32
  two_le_limbCount := by decide
  limbBits_pos := by decide
  carries_fit := by decide

instance : Inhabited Layout := ⟨standard⟩

/-- Width of a big integer. -/
def totalBits (layout : Layout) : Nat := layout.limbBits * layout.limbCount

/-- Bits of the registers of a modular product. -/
def carryBits (layout : Layout) : Nat := residualBits layout.limbBits layout.limbCount

/-- Bits of the registers of a product of two big integers. -/
def productBits (layout : Layout) : Nat := 2 * layout.limbBits + bitLength layout.limbCount

/-- Number of registers of a product of two big integers. -/
def productLength (layout : Layout) : Nat := 2 * layout.limbCount - 1

/-- The sizes as they stand in the names of components. -/
def sizes (layout : Layout) : String := s!"({layout.limbBits}, {layout.limbCount})"

theorem carryBits_add_slack_le (layout : Layout) :
    layout.carryBits + carrySlack ≤ maxRangeCheckBits := layout.carries_fit

theorem two_le_productLength (layout : Layout) : 2 ≤ layout.productLength := by
  have := layout.two_le_limbCount
  unfold productLength
  omega

theorem limbBits_le (layout : Layout) : layout.limbBits ≤ 124 := by
  have := layout.carries_fit
  simp only [residualBits, carrySlack, maxRangeCheckBits] at this
  omega

end Layout

end RsaCircuit
