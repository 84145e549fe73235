import RsaCircuit.Component.Bits
import RsaCircuit.Lists
set_option autoImplicit false

/-!
# Comparison of two scalars

For inputs `a` and `b` below `2 ^ bits` the sum `a + 2 ^ bits - b` is below `2 ^ (bits + 1)`, and its
top bit is set iff `a` is not below `b`.  Up to 252 bits that sum cannot wrap in the field.
-/

namespace RsaCircuit

/-- The widest inputs that a comparison can tell apart. -/
def maxComparisonBits : Nat := 252

/-- A comparison of inputs of the given width. -/
structure Comparison where
  bits : Nat
  bits_le : bits ≤ maxComparisonBits
  deriving Repr

namespace Comparison

def ofBits? (bits : Nat) : Except Misuse Comparison :=
  if bits_le : bits ≤ maxComparisonBits then .ok { bits, bits_le }
  else .error (.comparisonTooWide bits)

/-- The signals of a comparison. -/
structure Witness where
  /-- One if the left input is below the right one, else zero. -/
  out : Scalar
  left : Scalar
  right : Scalar
  split : BitSplit.Witness
  deriving DecidableEq, Repr, Inhabited

def Witness.signals (w : Witness) : List Scalar := [w.out, w.left, w.right] ++ w.split.signals

def component (comparison : Comparison) : Component (Scalar × Scalar) Witness where
  name := s!"LessThan({comparison.bits})"
  run := fun (left, right) => do
    let split ← (BitSplit.component (comparison.bits + 1)).place "n2b"
      (left + Scalar.twoPow comparison.bits - right)
    let top ← Run.ofDomain (elementAt? comparison.bits split.out)
    return { out := 1 - top, left, right, split }

end Comparison

end RsaCircuit
