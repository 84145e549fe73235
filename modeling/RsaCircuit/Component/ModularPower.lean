import RsaCircuit.Component.ModularProduct
set_option autoImplicit false

/-!
# Modular power with the exponent 65537

The exponent is `2 ^ 16 + 1`: sixteen squarings, and a product of the last square with the base.
-/

namespace RsaCircuit

/-- The public exponent of the signatures. -/
def publicExponent : Nat := 65537

/-- Number of squarings before the product with the base. -/
def squarings : Nat := publicExponent.log2

theorem pow2_squarings_add_one : pow2 squarings + 1 = publicExponent := by decide

namespace ModularPower

/-- The base and the modulus. -/
structure Input where
  base : Limbs
  modulus : Limbs
  deriving DecidableEq, Repr, Inhabited

/-- The signals of a modular power. -/
structure Witness where
  out : Limbs
  base : Limbs
  modulus : Limbs
  /-- The squarings in order: the one at position `i` gives the power `2 ^ (i + 1)`. -/
  squares : List ModularProduct.Witness
  /-- The product of the last square with the base. -/
  last : ModularProduct.Witness
  deriving DecidableEq, Repr, Inhabited

def Witness.signals (w : Witness) : List Scalar :=
  List.flatten [w.out, w.base, w.modulus, w.squares.flatMap ModularProduct.Witness.signals,
    w.last.signals]

/-- Squares `count` times, starting from `power`, under the labels from position `i` on. -/
def squareFrom (product : ModularProduct) (modulus : Limbs) :
    Nat → Nat → Limbs → Run (List ModularProduct.Witness)
  | _, 0, _ => return []
  | i, count + 1, power => do
    let square ← product.component.place s!"doublers[{i}]" ⟨power, power, modulus⟩
    let squares ← squareFrom product modulus (i + 1) count square.out
    return square :: squares

def component (product : ModularProduct) : Component Input Witness where
  name := s!"FpPow65537Mod{product.layout.sizes}"
  run := fun ⟨base, modulus⟩ => do
    let squares ← squareFrom product modulus 0 squarings base
    let power := (squares.getLast?.map (·.out)).getD base
    let last ← product.component.place "adder" ⟨power, base, modulus⟩
    Run.note (fun path => .powerComputed publicExponent path) (.done ())
    return { out := last.out, base, modulus, squares, last }

end ModularPower

end RsaCircuit
