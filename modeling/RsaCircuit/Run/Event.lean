import RsaCircuit.Limbs.Division
set_option autoImplicit false

/-!
# Events: what a run reports about itself

A run reports where it is and what it notices, as data.  Every event has a level and one line of
text; whoever reads the journal of a run decides which levels to show.

An instance of a component is named by the labels of the instances around it.  The innermost label
comes first, so that entering an instance is `label :: path`; the text has them outermost first.
-/

namespace RsaCircuit

/-- The labels of an instance and of those around it, innermost first. -/
abbrev InstancePath := List String

namespace InstancePath

/-- The labels joined by dots, outermost first. -/
def text (path : InstancePath) : String := String.intercalate "." path.reverse

end InstancePath

/-- How much detail an event is. -/
inductive Level where
  | trace
  | debug
  deriving DecidableEq, Repr, Inhabited

namespace Level

def text : Level → String
  | trace => "TRACE"
  | debug => "DEBUG"

end Level

/-- Something a run reports. -/
inductive Event where
  /-- An instance of a component starts. -/
  | running (name : String) (path : InstancePath)
  /-- The two sides of a constraint differ. -/
  | constraintFailed (index : Nat) (path : InstancePath) (description : String)
  /-- A division dropped zero limbs from the most significant end of its divisor. -/
  | divisorTrimmed (count : Nat)
  /-- The quotient of a modular product does not fit into the limbs of the layout. -/
  | quotientTooLong (limbCount : Nat)
  /-- A modular power is complete. -/
  | powerComputed (exponent : Nat) (path : InstancePath)
  /-- A signature check was asked for. -/
  | signatureReceived (bits : Nat)
  /-- The generation of a witness starts. -/
  | generationStarted (name : String)
  /-- The generation of a witness ended without one. -/
  | generationFailed (reason : String)
  /-- A summary of the profile follows. -/
  | profileSummary (components : Nat)
  deriving DecidableEq, Repr, Inhabited

namespace Event

def level : Event → Level
  | running _ _ => .trace
  | constraintFailed _ _ _ => .debug
  | divisorTrimmed _ => .trace
  | quotientTooLong _ => .debug
  | powerComputed _ _ => .trace
  | signatureReceived _ => .debug
  | generationStarted _ => .debug
  | generationFailed _ => .debug
  | profileSummary _ => .debug

def text : Event → String
  | running name path => s!"Running {name} at {path.text}"
  | constraintFailed index path description =>
    s!"Constraint #{index} failed at {path.text}: {description}"
  | divisorTrimmed count => s!"Dividing by a divisor with {count} leading zero limbs"
  | quotientTooLong limbCount =>
    s!"FpMul quotient exceeds {limbCount} limbs, factors are not reduced"
  | powerComputed exponent path => s!"Computed base^{exponent} at {path.text}"
  | signatureReceived bits => s!"Checking a {bits}-bit signature"
  | generationStarted name => s!"Generating witness for {name}"
  | generationFailed reason => s!"Witness generation failed: {reason}"
  | profileSummary components => s!"== Per template profile ({components} templates)"

/-- What a division by `divisor` reports: the zero limbs it drops, if it goes on without them. -/
def ofDivisor (divisor : Limbs) : List Event :=
  if Limbs.trim divisor = [] ∨ Limbs.leadingZeros divisor = 0 then []
  else [divisorTrimmed (Limbs.leadingZeros divisor)]

end Event

end RsaCircuit
