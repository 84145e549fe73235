import RsaCircuit.Component.LimbComparison
import RsaCircuit.Component.ModularPower
import RsaCircuit.Component.Padding
import RsaCircuit.Signature.Inputs
set_option autoImplicit false

/-!
# Verifier: the circuit of a signature check

A signature with the public exponent 65537 is valid for a digest if it is below the modulus and its
power modulo the modulus is the padded message.  The verifier runs its components in this order: the
padding, a range check of the signature, the comparison and the power.  A failing constraint is
classified by the stage that it belongs to.

The verifier has no instance of its own: its components run directly in the instance that the
context is at.
-/

namespace RsaCircuit

/-! ## Checks with classified errors -/

/-- A computation in a context that stops with a classified error. -/
abbrev Session := ExceptT (Stop WitnessError) (StateM Context)

namespace Session

/-- Performs a run and classifies its error. -/
def perform {α : Type} (classify : ConstraintError → WitnessError) (run : Run α) : Session α :=
  ExceptT.mk fun context =>
    let (outcome, context) := run.exec context
    (outcome.mapError (Stop.map classify), context)

end Session

/-! ## The verifier -/

/-- A verifier for a layout that can hold padded messages. -/
structure Verifier where
  padding : Padding
  product : ModularProduct
  product_layout : product.layout = padding.layout

namespace Verifier

def layout (verifier : Verifier) : Layout := verifier.padding.layout

def ofLayout? (layout : Layout) : Except LayoutError Verifier := do
  let padding ← Padding.ofLayout? layout
  return ⟨padding, .ofLayout padding.layout, rfl⟩

def name (verifier : Verifier) : String := s!"RSAVerify65537{verifier.layout.sizes}"

/-- The signals of a signature check. -/
structure Witness where
  signature : Limbs
  modulus : Limbs
  digest : Limbs
  padding : Padding.Witness
  signatureRange : List BitSplit.Witness
  comparison : LimbComparison.Witness
  power : ModularPower.Witness
  deriving DecidableEq, Repr, Inhabited

def Witness.signals (w : Witness) : List Scalar :=
  List.flatten [w.signature, w.modulus, w.digest, w.padding.signals,
    w.signatureRange.flatMap BitSplit.Witness.signals, w.comparison.signals, w.power.signals]

/-- Checks a limb of the power against the limb of the padded message. -/
def assertDecrypted : Scalar × Scalar → Run Unit := fun (actual, expected) =>
  Run.assertEqual actual expected "signature decrypts to the padded message"

/-- Checks the power against the padded message, limb by limb. -/
def assertDecryptsTo (power message : Limbs) : Run Unit := do
  let pairs ← Run.ofDomain (zip? power message)
  Run.each assertDecrypted pairs

/-- Computes all signals of a check. -/
def generate (verifier : Verifier) (inputs : Inputs) : Session Witness := do
  if let some e := inputs.shapeError? verifier.layout then throw (.error e)
  let ⟨signature, modulus, digest⟩ := inputs
  let padding ← Session.perform .malformedInput
    (verifier.padding.component.place "padder" ⟨modulus, digest⟩)
  let signatureRange ← Session.perform .malformedInput
    ((BitSplit.component verifier.layout.limbBits).placeEach "signature_range_check" signature)
  let comparison ← Session.perform .internal
    ((LimbComparison.component verifier.layout).place "big_less_than" (signature, modulus))
  Session.perform .invalidSignature
    (Run.assertEqual comparison.out 1 "signature is below the modulus")
  let power ← Session.perform .internal
    ((ModularPower.component verifier.product).place "big_pow" ⟨signature, modulus⟩)
  Session.perform .invalidSignature (assertDecryptsTo power.out padding.paddedMessage)
  return { signature, modulus, digest, padding, signatureRange, comparison, power }

end Verifier

end RsaCircuit
