import RsaCircuit.Run.Basic
set_option autoImplicit false

/-!
# Zero test and equality test

A circuit tells zero from nonzero with the help of an inverse: if `inverse` is the inverse of a
nonzero input, `1 - input * inverse` is zero, and for the input zero it is one, whatever `inverse`
is.  Two scalars are equal iff their difference is zero.
-/

namespace RsaCircuit

namespace ZeroTest

/-- The signals of a zero test. -/
structure Witness where
  /-- One for the input zero, else zero. -/
  out : Scalar
  input : Scalar
  /-- The inverse of the input, zero for zero. -/
  inverse : Scalar
  deriving DecidableEq, Repr, Inhabited

def Witness.signals (w : Witness) : List Scalar := [w.out, w.input, w.inverse]

def component : Component Scalar Witness where
  name := "IsZero"
  run input := do
    let inverse := input.inverse?.getD 0
    let out := 1 - input * inverse
    Run.assertZero (input * out) "input * out == 0"
    return { out, input, inverse }

end ZeroTest

namespace EqualityTest

/-- The signals of an equality test. -/
structure Witness where
  /-- One for equal inputs, else zero. -/
  out : Scalar
  left : Scalar
  right : Scalar
  zeroTest : ZeroTest.Witness
  deriving DecidableEq, Repr, Inhabited

def Witness.signals (w : Witness) : List Scalar :=
  [w.out, w.left, w.right] ++ w.zeroTest.signals

def component : Component (Scalar × Scalar) Witness where
  name := "IsEqual"
  run := fun (left, right) => do
    let zeroTest ← ZeroTest.component.place "is_zero" (right - left)
    return { out := zeroTest.out, left, right, zeroTest }

end EqualityTest

end RsaCircuit
