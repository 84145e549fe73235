import RsaCircuit.Layout
import RsaCircuit.Run.Context
set_option autoImplicit false

/-!
# Inputs of a signature check

A check takes three big integers as limbs: the signature, the modulus and the digest.  They may come
from integers, from big-endian byte strings, or as limbs under the names of their input signals.
-/

namespace RsaCircuit

/-- An input signal of the circuit. -/
inductive InputSignal where
  | signature
  | modulus
  | digest
  deriving DecidableEq, Repr, Inhabited

namespace InputSignal

/-- The name that the circuit gives the signal. -/
def name : InputSignal → String
  | signature => "signature"
  | modulus => "modulus"
  | digest => "base_message"

/-- The input signals in the order in which a witness lists them. -/
def all : List InputSignal := [signature, modulus, digest]

end InputSignal

/-- Why the generation of a witness stopped. -/
inductive WitnessError where
  | missingInput (signal : InputSignal)
  | inputLength (signal : InputSignal) (expected actual : Nat)
  | inputOverflow (signal : InputSignal) (cause : ArithmeticError)
  /-- A limb is out of range, the digest is too long or the modulus too short for the padding. -/
  | malformedInput (e : ConstraintError)
  /-- The signature is not below the modulus or does not decrypt to the padded digest. -/
  | invalidSignature (e : ConstraintError)
  /-- A check failed that holds for all well-formed inputs. -/
  | internal (e : ConstraintError)
  | layout (e : LayoutError)
  deriving DecidableEq, Repr

namespace WitnessError

def message : WitnessError → String
  | missingInput signal => s!"missing input signal `{signal.name}`"
  | inputLength signal expected actual =>
    s!"input `{signal.name}` has {actual} limbs, expected {expected}"
  | inputOverflow signal cause =>
    s!"input `{signal.name}` does not fit the limb layout: {cause.message}"
  | malformedInput e => s!"malformed input: {e.message}"
  | invalidSignature e => s!"invalid signature: {e.message}"
  | internal e => s!"internal consistency check failed: {e.message}"
  | layout e => e.message

end WitnessError

/-- The limbs that a signature check takes. -/
structure Inputs where
  signature : Limbs
  modulus : Limbs
  digest : Limbs
  deriving DecidableEq, Repr, Inhabited

namespace Inputs

/-- The limbs of one integer, for the signal that it is meant for. -/
def encode? (layout : Layout) (signal : InputSignal) (v : Nat) : Except WitnessError Limbs :=
  (Limbs.ofNat? layout.limbBits layout.limbCount v).mapError (.inputOverflow signal)

/-- The inputs given as integers. -/
def ofIntegers? (layout : Layout) (signature modulus digest : Nat) : Except WitnessError Inputs := do
  let signature ← encode? layout .signature signature
  let modulus ← encode? layout .modulus modulus
  let digest ← encode? layout .digest digest
  return { signature, modulus, digest }

/-- The inputs given as big-endian byte strings. -/
def ofBytes? (layout : Layout) (signature modulus digest : List UInt8) :
    Except WitnessError Inputs :=
  ofIntegers? layout (ofBigEndian signature) (ofBigEndian modulus) (ofBigEndian digest)

/-- The limbs under the name of a signal. -/
def find? (signals : List (String × Limbs)) (signal : InputSignal) : Except WitnessError Limbs :=
  match signals.lookup signal.name with
  | some limbs => .ok limbs
  | none => .error (.missingInput signal)

/-- The inputs given as limbs by signal name.  Other names are ignored. -/
def ofSignals? (signals : List (String × Limbs)) : Except WitnessError Inputs := do
  let signature ← find? signals .signature
  let modulus ← find? signals .modulus
  let digest ← find? signals .digest
  return { signature, modulus, digest }

/-- The limbs of a signal. -/
def limbs (inputs : Inputs) : InputSignal → Limbs
  | .signature => inputs.signature
  | .modulus => inputs.modulus
  | .digest => inputs.digest

/-- The limbs by signal name. -/
def toSignals (inputs : Inputs) : List (String × Limbs) :=
  InputSignal.all.map fun signal => (signal.name, inputs.limbs signal)

/-- How many input signals a circuit has. -/
def signalCount (layout : Layout) : Nat := InputSignal.all.length * layout.limbCount

/-- The error of the first signal that does not have one limb per limb of the layout. -/
def shapeError? (layout : Layout) (inputs : Inputs) : Option WitnessError :=
  (InputSignal.all.find? fun signal => (inputs.limbs signal).length ≠ layout.limbCount).map
    fun signal => .inputLength signal layout.limbCount (inputs.limbs signal).length

end Inputs

end RsaCircuit
