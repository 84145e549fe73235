set_option autoImplicit false

/-!
# Faults: calls that have no answer

Two things can keep an operation from answering.  Its *result* can be an error that the caller is
meant to handle, and its *call* can lie outside the operation's domain: a quotient by the zero
scalar, a limb list of the wrong length, a width the field cannot hold.  The second kind is a
`Misuse`; `Stop` puts both beside each other, so that no caller can mistake one for the other.
-/

namespace RsaCircuit

/-- A call outside the domain of an operation. -/
inductive Misuse where
  /-- A quotient or a remainder by zero. -/
  | zeroDivisor
  /-- A list of scalars whose length the operation does not take. -/
  | wrongLength (expected actual : Nat)
  /-- A part of a list that does not lie within the list. -/
  | outOfBounds (bound length : Nat)
  /-- A carry check for registers too wide to range check their carries. -/
  | carriesTooWide (bits : Nat)
  /-- A carry check without a carry. -/
  | tooFewRegisters
  /-- A carry check for limbs so wide that no bit is left to range check a carry with. -/
  | limbsTooWide (width : Nat)
  /-- A comparison of values wider than the field can tell apart. -/
  | comparisonTooWide (bits : Nat)
  deriving DecidableEq, Repr, Inhabited

namespace Misuse

/-- The rule that the parameters of a component break.  A misuse of an operation on values names no
parameter and has no text. -/
def message? : Misuse → Option String
  | zeroDivisor => none
  | wrongLength _ _ => none
  | outOfBounds _ _ => none
  | carriesTooWide bits => some s!"carries of {bits} bits are too wide"
  | tooFewRegisters => some "at least two registers are required"
  | limbsTooWide _ => none
  | comparisonTooWide bits => some s!"LessThan supports at most 252 bits, got {bits}"

end Misuse

/-- Why a computation with errors of type `ε` stopped. -/
inductive Stop (ε : Type) where
  | error (e : ε)
  | misuse (m : Misuse)
  deriving DecidableEq, Repr

namespace Stop

/-- Restates the error; a misuse stays what it is. -/
def map {ε δ : Type} (f : ε → δ) : Stop ε → Stop δ
  | .error e => .error (f e)
  | .misuse m => .misuse m

@[simp] theorem map_error {ε δ : Type} (f : ε → δ) (e : ε) : (Stop.error e).map f = .error (f e) := rfl

@[simp] theorem map_misuse {ε δ : Type} (f : ε → δ) (m : Misuse) :
    (Stop.misuse m : Stop ε).map f = .misuse m := rfl

end Stop

/-- A sequence goes on from a first part that has a result. -/
theorem bind_of_ok {ε α β : Type} {result : Except ε α} {value : α} (h : result = .ok value)
    (f : α → Except ε β) : (result >>= f) = f value := by
  rw [h]
  rfl

theorem bind_eq_ok {ε α β : Type} {result : Except ε α} {f : α → Except ε β} {value : β} :
    (result >>= f) = .ok value ↔ ∃ first, result = .ok first ∧ f first = .ok value := by
  cases result with
  | ok first => exact ⟨fun h => ⟨first, rfl, h⟩, fun ⟨_, hfirst, h⟩ => Except.ok.inj hfirst ▸ h⟩
  | error e => exact ⟨fun h => (nomatch h), fun ⟨_, h, _⟩ => (nomatch h)⟩

end RsaCircuit
