import RsaCircuit.Run.Basic
set_option autoImplicit false

/-!
# Bits: splitting a scalar into bits and joining bits to a scalar

Splitting doubles as a range check: the lowest `bits` binary digits of the canonical representative
add up to the input iff the representative is below `2 ^ bits`.  Both directions weigh the bits by
doubling in the field, so for 254 bits and more the weights are reduced powers of two.
-/

namespace RsaCircuit

/-- The weighted sum of bits, least significant first, where the first one weighs `weight` and each
one twice as much as the one before it. -/
def weightedSum (weight : Scalar) : List Scalar → Scalar
  | [] => 0
  | bit :: bits => bit * weight + weightedSum (weight + weight) bits

/-- The lowest `count` binary digits of the canonical representative, as scalars. -/
def Scalar.bits (count : Nat) (x : Scalar) : List Scalar :=
  (List.range count).map fun i => Scalar.ofBool (x.val.testBit i)

@[simp] theorem Scalar.length_bits (count : Nat) (x : Scalar) : (x.bits count).length = count := by
  simp [Scalar.bits]

namespace BitSplit

/-- The signals of a split. -/
structure Witness where
  /-- The bits, least significant first. -/
  out : List Scalar
  input : Scalar
  deriving DecidableEq, Repr, Inhabited

def Witness.signals (w : Witness) : List Scalar := w.out ++ [w.input]

/-- Checks that a scalar is 0 or 1. -/
def assertBoolean (bit : Scalar) : Run Unit := Run.assertZero (bit * (bit - 1)) "bit is boolean"

def component (bits : Nat) : Component Scalar Witness where
  name := s!"Num2Bits({bits})"
  run input := do
    let out := input.bits bits
    Run.each assertBoolean out
    Run.assertEqual (weightedSum 1 out) input "bits add up to the input"
    return { out, input }

end BitSplit

namespace BitJoin

/-- The signals of a join. -/
structure Witness where
  out : Scalar
  /-- The bits, least significant first. -/
  input : List Scalar
  deriving DecidableEq, Repr, Inhabited

def Witness.signals (w : Witness) : List Scalar := w.out :: w.input

def component (bits : Nat) : Component (List Scalar) Witness where
  name := s!"Bits2Num({bits})"
  run input :=
    if input.length = bits then return { out := weightedSum 1 input, input }
    else .misuse (.wrongLength bits input.length)

end BitJoin

end RsaCircuit
