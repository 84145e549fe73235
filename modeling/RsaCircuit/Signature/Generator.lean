import RsaCircuit.Signature.Verifier
set_option autoImplicit false

/-!
# Generator: witnesses of signature checks

A generator runs the verifier in a fresh context and gives the witness together with its statistics,
and a report of the events on the way, also where there is no witness.
-/

namespace RsaCircuit

/-- The witness of a valid signature, with the statistics of its generation. -/
structure SignatureWitness where
  check : Verifier.Witness
  /-- How many constraints were checked. -/
  constraintCount : Nat
  /-- How many instances there are of each component. -/
  instances : Tally
  deriving DecidableEq, Repr, Inhabited

namespace SignatureWitness

/-- All signals, after the constant one. -/
def vector (w : SignatureWitness) : List Scalar := 1 :: w.check.signals

/-- Number of signals with the constant one. -/
def signalCount (w : SignatureWitness) : Nat := w.check.signals.length + 1

theorem length_vector (w : SignatureWitness) : w.vector.length = w.signalCount := by
  simp [vector, signalCount]

end SignatureWitness

/-- The outcome of a generation and the events on the way. -/
structure Report where
  outcome : Except (Stop WitnessError) SignatureWitness
  events : List Event

namespace Report

/-- A generation that ended before it started. -/
def refused (e : WitnessError) : Report := ⟨.error (.error e), []⟩

/-- Puts events in front. -/
def after (events : List Event) (report : Report) : Report :=
  { report with events := events ++ report.events }

end Report

/-- A generator for a layout. -/
structure Generator where
  layout : Layout
  /-- Whether a summary of the profile is reported. -/
  profileSummary : Bool
  deriving DecidableEq, Repr, Inhabited

namespace Generator

def ofLayout (layout : Layout) : Generator := ⟨layout, false⟩

/-- The instance that a witness is generated for. -/
def root : String := "main"

/-- What is reported after the check itself. -/
def closingEvents (generator : Generator) (outcome : Except (Stop WitnessError) Verifier.Witness)
    (context : Context) : List Event :=
  (if generator.profileSummary then [.profileSummary context.profile.entries.length] else []) ++
    match outcome with
    | .error (.error e) => [.generationFailed e.message]
    | _ => []

/-- Generates a witness with a verifier. -/
def generateWith (generator : Generator) (verifier : Verifier) (inputs : Inputs) : Report :=
  let (outcome, context) := (verifier.generate inputs).run.run (Context.ofRoot root)
  { outcome := outcome.map fun check =>
      { check, constraintCount := context.constraintCount, instances := context.profile.entries }
    events := List.flatten [[.generationStarted verifier.name], context.events,
      generator.closingEvents outcome context] }

/-- Generates the witness of a signature check. -/
def generate (generator : Generator) (inputs : Inputs) : Report :=
  match Verifier.ofLayout? generator.layout with
  | .ok verifier => generator.generateWith verifier inputs
  | .error e => .refused (.layout e)

/-- The same for inputs given as big-endian byte strings. -/
def generateBytes (generator : Generator) (signature modulus digest : List UInt8) : Report :=
  match Inputs.ofBytes? generator.layout signature modulus digest with
  | .ok inputs => generator.generate inputs
  | .error e => .refused e

end Generator

/-- Generates the witness of a signature check in the standard layout, for inputs given as big-endian
byte strings. -/
def generateWitness (signature modulus digest : List UInt8) : Report :=
  Report.after [.signatureReceived (bitLength (ofBigEndian modulus))]
    ((Generator.ofLayout .standard).generateBytes signature modulus digest)

end RsaCircuit
