import Mathlib.NumberTheory.LucasPrimality
import Mathlib.Data.List.Prime
import Mathlib.Tactic.NormNum.Prime
import RsaCircuit.Scalar.Basic
set_option autoImplicit false

/-!
# Primality of the field order

`fieldOrder` is prime by Lucas's test: a number `a` whose power `a ^ (p - 1)` is one modulo `p`, and
none of whose powers `a ^ ((p - 1) / q)` is, for the primes `q` that divide `p - 1`, generates a
group of `p - 1` units.  The primes `q` are certified in the same way as long as they are too large
for trial division.
-/

namespace RsaCircuit

/-! ## Powers modulo a number -/

/-- The power `x ^ e` modulo `m`, for exponents of at most `count` binary digits. -/
def powerMod (m : Nat) : Nat → Nat → Nat → Nat
  | 0, _, _ => 1
  | count + 1, x, e =>
    let rest := powerMod m count (x * x % m) (e / 2)
    if e % 2 = 1 then x * rest % m else rest

theorem cast_powerMod (m count x e : Nat) (h : e < 2 ^ count) :
    (powerMod m count x e : ZMod m) = (x : ZMod m) ^ e := by
  induction count generalizing x e with
  | zero =>
    have he : e = 0 := by simpa using h
    simp [powerMod, he]
  | succ count ih =>
    have hhalf : e / 2 < 2 ^ count := by rw [pow_succ] at h; omega
    have hrest : (powerMod m count (x * x % m) (e / 2) : ZMod m) = (x : ZMod m) ^ (2 * (e / 2)) := by
      rw [ih _ _ hhalf, ZMod.natCast_mod, Nat.cast_mul, ← pow_two, ← pow_mul]
    rw [powerMod]
    split
    · next hodd =>
      have he : 2 * (e / 2) + 1 = e := by omega
      rw [ZMod.natCast_mod, Nat.cast_mul, hrest, ← pow_succ', he]
    · next heven =>
      have he : 2 * (e / 2) = e := by omega
      rw [hrest, he]

/-! ## Lucas's test -/

/-- The two conditions of Lucas's test of `p` with the base `a`, for the primes `q` in `factors`. -/
def lucasTest (p a : Nat) (factors : List Nat) : Bool :=
  let digits := bitLength p
  decide (2 ≤ p) && decide (powerMod p digits a (p - 1) % p = 1) &&
    factors.all fun q => decide (powerMod p digits a ((p - 1) / q) % p ≠ 1)

theorem pow_eq_one_iff_powerMod {p : Nat} (hp : 2 ≤ p) {a e : Nat} (he : e ≤ p) :
    (a : ZMod p) ^ e = 1 ↔ powerMod p (bitLength p) a e % p = 1 := by
  have hlt : e < 2 ^ bitLength p := Nat.lt_of_le_of_lt he (lt_pow2_bitLength p)
  rw [← cast_powerMod p (bitLength p) a e hlt, ← Nat.cast_one, ZMod.natCast_eq_natCast_iff',
    Nat.mod_eq_of_lt hp]

/-- Lucas's test is sound if `factors` are the prime factors of `p - 1`. -/
theorem prime_of_lucasTest {p : Nat} (a : Nat) (factors : List Nat)
    (hprime : ∀ q ∈ factors, q.Prime) (hprod : factors.prod = p - 1)
    (htest : lucasTest p a factors = true) : p.Prime := by
  simp only [lucasTest, Bool.and_eq_true, decide_eq_true_eq, List.all_eq_true] at htest
  obtain ⟨⟨hp, hone⟩, hne⟩ := htest
  refine lucas_primality p a ?_ ?_
  · exact (pow_eq_one_iff_powerMod hp (Nat.sub_le p 1)).2 hone
  · intro q hq hdvd
    rw [← hprod] at hdvd
    obtain ⟨r, hr, hqr⟩ := (Prime.dvd_prod_iff hq.prime).1 hdvd
    have heq : q = r := (Nat.prime_dvd_prime_iff_eq hq (hprime r hr)).1 hqr
    rw [heq, Ne, pow_eq_one_iff_powerMod hp ((Nat.div_le_self _ _).trans (Nat.sub_le p 1))]
    exact hne r hr

/-! ## The certificate -/

theorem prime_12048837557 : Nat.Prime 12048837557 := by
  refine prime_of_lucasTest 2 [2, 2, 7, 7, 661, 93001] ?_ (by norm_num) (by decide +kernel)
  norm_num

theorem prime_5156902474397 : Nat.Prime 5156902474397 := by
  refine prime_of_lucasTest 2 [2, 2, 107, 12048837557] ?_ (by norm_num) (by decide +kernel)
  simp only [List.forall_mem_cons, prime_12048837557, true_and]
  norm_num

theorem prime_1670836401704629 : Nat.Prime 1670836401704629 := by
  refine prime_of_lucasTest 2 [2, 2, 3, 3, 3, 3, 5156902474397] ?_ (by norm_num) (by decide +kernel)
  simp only [List.forall_mem_cons, prime_5156902474397, true_and]
  norm_num

theorem prime_639533339 : Nat.Prime 639533339 := by
  refine prime_of_lucasTest 2 [2, 229, 853, 1637] ?_ (by norm_num) (by decide +kernel)
  norm_num

theorem prime_65865678001877903 : Nat.Prime 65865678001877903 := by
  refine prime_of_lucasTest 5 [2, 83, 379, 1637, 639533339] ?_ (by norm_num) (by decide +kernel)
  simp only [List.forall_mem_cons, prime_639533339, true_and]
  norm_num

theorem prime_13818364434197438864469338081 : Nat.Prime 13818364434197438864469338081 := by
  refine prime_of_lucasTest 3 [2, 2, 2, 2, 2, 5, 823, 1593227, 65865678001877903] ?_ (by norm_num)
    (by decide +kernel)
  simp only [List.forall_mem_cons, prime_65865678001877903, true_and]
  norm_num

theorem prime_405928799 : Nat.Prime 405928799 := by
  refine prime_of_lucasTest 22 [2, 11, 3691, 4999] ?_ (by norm_num) (by decide +kernel)
  norm_num

theorem fieldOrder_prime : fieldOrder.Prime := by
  refine prime_of_lucasTest 5
    (List.replicate 28 2 ++ [3, 3, 13, 29, 983, 11003, 237073, 405928799, 1670836401704629,
      13818364434197438864469338081]) ?_ ?_ (by decide +kernel)
  · simp only [List.forall_mem_append, List.forall_mem_cons, prime_405928799,
      prime_1670836401704629, prime_13818364434197438864469338081, true_and]
    refine ⟨?_, by norm_num⟩
    intro q hq
    rw [List.eq_of_mem_replicate hq]
    exact Nat.prime_two
  · rw [List.prod_append, List.prod_replicate]
    norm_num [fieldOrder]

end RsaCircuit
