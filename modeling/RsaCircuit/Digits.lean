import RsaCircuit.Fault
set_option autoImplicit false

/-!
# Digits: widths and positional notations of naturals

Every width in the circuit is a bit count, so the length of a natural in binary is fixed here once:
`bitLength n ≤ k` says exactly that `n` is below `pow2 k`.  Byte strings come in as big-endian digits
to base 256, and hexadecimal text goes out.
-/

namespace RsaCircuit

/-! ## Powers of two -/

/-- The power of two with the given exponent. -/
def pow2 (n : Nat) : Nat := Nat.pow 2 n

@[simp] theorem pow2_zero : pow2 0 = 1 := rfl

theorem pow2_succ (n : Nat) : pow2 (n + 1) = 2 * pow2 n := Nat.mul_comm (pow2 n) 2

theorem pow2_add (m n : Nat) : pow2 (m + n) = pow2 m * pow2 n := Nat.pow_add 2 m n

theorem pow2_pos (n : Nat) : 0 < pow2 n := Nat.two_pow_pos n

/-! ## Widths -/

/-- Number of binary digits of `n`; zero has none. -/
def bitLength (n : Nat) : Nat := if n = 0 then 0 else n.log2 + 1

theorem bitLength_le_iff (n k : Nat) : bitLength n ≤ k ↔ n < pow2 k := by
  unfold bitLength
  split
  · next h =>
    subst h
    exact ⟨fun _ => pow2_pos k, fun _ => Nat.zero_le k⟩
  · next h =>
    rw [Nat.succ_le_iff]
    exact Nat.log2_lt h

theorem lt_pow2_bitLength (n : Nat) : n < pow2 (bitLength n) :=
  (bitLength_le_iff n (bitLength n)).1 (Nat.le_refl _)

@[simp] theorem bitLength_zero : bitLength 0 = 0 := rfl

/-- How many pieces of `size` units cover `total` units. -/
def piecesFor (total size : Nat) : Nat := (total + size - 1) / size

theorem le_piecesFor_mul (total size : Nat) (h : 0 < size) : total ≤ piecesFor total size * size := by
  have hdiv := Nat.div_add_mod (total + size - 1) size
  have hmod := Nat.mod_lt (total + size - 1) h
  rw [Nat.mul_comm] at hdiv
  unfold piecesFor
  omega

/-- The same for a size that may be zero: then no number of pieces covers anything. -/
def piecesFor? (total size : Nat) : Except Misuse Nat :=
  if size = 0 then .error .zeroDivisor else .ok (piecesFor total size)

/-- The value as a 64-bit word, if it is one. -/
def word64? (n : Nat) : Option UInt64 := if n < UInt64.size then some (UInt64.ofNat n) else none

/-! ## Notations -/

/-- The natural with the given big-endian base-256 digits. -/
def ofBigEndian (bytes : List UInt8) : Nat := bytes.foldl (fun acc byte => acc * 256 + byte.toNat) 0

/-- Lower-case hexadecimal text without leading zeros; zero is one digit. -/
def hexText (n : Nat) : String := String.ofList (Nat.toDigits 16 n)

end RsaCircuit
