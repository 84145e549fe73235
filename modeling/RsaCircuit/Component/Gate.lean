import RsaCircuit.Run.Basic
set_option autoImplicit false

/-!
# Gates: conjunction and disjunction of truth values

On the scalars 0 and 1 conjunction is the product and disjunction the sum less the product.  A gate
does not check that its inputs are truth values.
-/

namespace RsaCircuit

/-- A boolean operation of two inputs. -/
inductive Gate where
  | and
  | or
  deriving DecidableEq, Repr, Inhabited

namespace Gate

def name : Gate → String
  | and => "AND"
  | or => "OR"

def eval : Gate → Scalar → Scalar → Scalar
  | and, a, b => a * b
  | or, a, b => a + b - a * b

/-- The signals of a gate. -/
structure Witness where
  out : Scalar
  left : Scalar
  right : Scalar
  deriving DecidableEq, Repr, Inhabited

def Witness.signals (w : Witness) : List Scalar := [w.out, w.left, w.right]

def component (gate : Gate) : Component (Scalar × Scalar) Witness where
  name := gate.name
  run := fun (left, right) => return { out := gate.eval left right, left, right }

end Gate

end RsaCircuit
