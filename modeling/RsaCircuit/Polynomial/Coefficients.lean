import RsaCircuit.Scalar.Signed
set_option autoImplicit false

/-!
# Polynomials as coefficient lists

A polynomial over the scalars is the list of its coefficients, the constant one first.  Lists of
different lengths are added as if the shorter one went on with zeros, so a list may carry zeros at
its end.
-/

namespace RsaCircuit

/-- The coefficients of a polynomial, the constant one first. -/
abbrev Coefficients := List Scalar

namespace Coefficients

/-- The value at `x`, by Horner's rule. -/
def eval (p : Coefficients) (x : Scalar) : Scalar := p.foldr (fun c acc => acc * x + c) 0

/-- The sum, as long as the longer operand. -/
def add : Coefficients → Coefficients → Coefficients
  | [], q => q
  | c :: p, q => (c + q.headD 0) :: add p q.tail

/-- The multiple by a scalar. -/
def smul (factor : Scalar) (p : Coefficients) : Coefficients := p.map (factor * ·)

/-- The product by `x - root`. -/
def timesRoot (root : Scalar) (p : Coefficients) : Coefficients := add (0 :: p) (smul (-root) p)

/-- Synthetic division by `x - root`: the quotient, one coefficient shorter, and the remainder. -/
def divRoot (root : Scalar) : Coefficients → Coefficients × Scalar
  | [] => ([], 0)
  | [c] => ([], c)
  | c :: d :: p =>
    let (quotient, remainder) := divRoot root (d :: p)
    (remainder :: quotient, c + root * remainder)

/-- The product, coefficient by coefficient. -/
def convolve : Coefficients → Coefficients → Coefficients
  | [], _ => []
  | c :: p, q => add (smul c q) (0 :: convolve p q)

@[simp] theorem eval_nil (x : Scalar) : eval [] x = 0 := rfl

@[simp] theorem eval_cons (c : Scalar) (p : Coefficients) (x : Scalar) :
    eval (c :: p) x = eval p x * x + c := rfl

theorem length_add (p q : Coefficients) : (add p q).length = max p.length q.length := by
  induction p generalizing q with
  | nil => simp [add]
  | cons c p ih =>
    cases q with
    | nil => simp [add, ih]
    | cons d q => simp only [add, List.length_cons, ih, List.tail_cons]; omega

@[simp] theorem length_smul (factor : Scalar) (p : Coefficients) :
    (smul factor p).length = p.length := by simp [smul]

theorem length_timesRoot (root : Scalar) (p : Coefficients) :
    (timesRoot root p).length = p.length + 1 := by
  simp [timesRoot, length_add]

theorem length_divRoot (root : Scalar) (p : Coefficients) :
    (divRoot root p).1.length = p.length - 1 := by
  fun_induction divRoot root p with
  | case1 => rfl
  | case2 => rfl
  | case3 c d p quotient remainder h ih => simp_all

end Coefficients

end RsaCircuit
