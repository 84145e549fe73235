import RsaCircuit.Layout
import RsaCircuit.Component.Comparison
import RsaCircuit.Component.Gate
import RsaCircuit.Component.ZeroTest
import RsaCircuit.Lists
set_option autoImplicit false

/-!
# Comparison of two big integers

All pairs of limbs are compared and tested for equality first.  Gates then fold the answers from the
most significant limb down.  At each limb they say whether the limbs from there up are equal, and
whether `a` is below `b` on them: it is if it was already above, or if all limbs above are equal and
this one is smaller.
-/

namespace RsaCircuit

namespace LimbComparison

/-- The answers for the limbs from some position up, with the gates that gave them, the lowest
position first. -/
structure Suffix where
  /-- One if the limbs are equal. -/
  equal : Scalar
  /-- One if the left limbs are below the right ones. -/
  less : Scalar
  ors : List Gate.Witness
  ands : List Gate.Witness
  equalAnds : List Gate.Witness
  deriving DecidableEq, Repr, Inhabited

/-- The signals of a comparison of big integers. -/
structure Witness where
  /-- One if the left integer is below the right one, else zero. -/
  out : Scalar
  left : Limbs
  right : Limbs
  comparisons : List Comparison.Witness
  equalities : List EqualityTest.Witness
  /-- One gate of each kind per limb but the most significant one, by position. -/
  ors : List Gate.Witness
  ands : List Gate.Witness
  equalAnds : List Gate.Witness
  deriving DecidableEq, Repr, Inhabited

def Witness.signals (w : Witness) : List Scalar :=
  List.flatten [[w.out], w.left, w.right,
    w.comparisons.flatMap Comparison.Witness.signals,
    w.equalities.flatMap EqualityTest.Witness.signals,
    w.ors.flatMap Gate.Witness.signals,
    w.ands.flatMap Gate.Witness.signals,
    w.equalAnds.flatMap Gate.Witness.signals]

/-- Folds the answers of single limbs, each whether the left limb is below the right one and whether
both are equal, for the positions from `i` up.  There has to be a most significant limb. -/
def fold : Nat → List (Scalar × Scalar) → Run Suffix
  | _, [] => .misuse (.outOfBounds 1 0)
  | _, [(less, equal)] => return ⟨equal, less, [], [], []⟩
  | i, (less, equal) :: higher :: rest => do
    let above ← fold (i + 1) (higher :: rest)
    let and ← Gate.and.component.place s!"ands[{i}]" (above.equal, less)
    let equalAnd ← Gate.and.component.place s!"eq_ands[{i}]" (above.equal, equal)
    let or ← Gate.or.component.place s!"ors[{i}]" (above.less, and.out)
    return ⟨equalAnd.out, or.out, or :: above.ors, and :: above.ands, equalAnd :: above.equalAnds⟩

/-- The comparison of single limbs. -/
def limbComparison (layout : Layout) : Comparison where
  bits := layout.limbBits
  bits_le := Nat.le_trans layout.limbBits_le (by decide)

def component (layout : Layout) : Component (Limbs × Limbs) Witness where
  name := s!"BigLessThan{layout.sizes}"
  run := fun (left, right) =>
    if left.length ≠ layout.limbCount then .misuse (.wrongLength layout.limbCount left.length)
    else if right.length ≠ layout.limbCount then
      .misuse (.wrongLength layout.limbCount right.length)
    else do
      let pairs ← Run.ofDomain (zip? left right)
      let comparisons ← (limbComparison layout).component.placeEach "lt" pairs
      let equalities ← EqualityTest.component.placeEach "eq" pairs
      let answers ← Run.ofDomain (zip? (comparisons.map (·.out)) (equalities.map (·.out)))
      let suffix ← fold 0 answers
      return {
        out := suffix.less, left, right, comparisons, equalities,
        ors := suffix.ors, ands := suffix.ands, equalAnds := suffix.equalAnds }

end LimbComparison

end RsaCircuit
