import Mathlib.Data.Nat.Squarefree
import Mathlib.FieldTheory.Finite.Basic
import Mathlib.Data.Nat.Prime.Factorial
import RsaCircuit.Proofs.Signature.Verdict
set_option autoImplicit false

/-!
# Uniqueness of signatures

Modulo a squarefree number the power map permutes the residues if its exponent is coprime to `r - 1`
for all prime factors `r`.  Under such a modulus every digest has exactly one signature, and since all
limbs are digits and the signature is reduced, it is accepted in exactly one form.  Under any modulus a
signature is accepted for one digest at most, because the padded message determines the digest.
-/

namespace RsaCircuit

/-! ## The power map -/

section PowerMap

variable {n e r x y : Nat}

/-- Modulo a prime, zero is the only root of zero, and the units are a group of order `r - 1`. -/
theorem modEq_of_pow_modEq_prime (hr : r.Prime) (he : e ≠ 0) (hcoprime : (r - 1).Coprime e)
    (h : x ^ e ≡ y ^ e [MOD r]) : x ≡ y [MOD r] := by
  have : Fact r.Prime := ⟨hr⟩
  rw [← ZMod.natCast_eq_natCast_iff] at h ⊢
  rw [Nat.cast_pow, Nat.cast_pow] at h
  rcases eq_or_ne (x : ZMod r) 0 with hx | hx
  · rw [hx, zero_pow he] at h
    rw [hx, pow_eq_zero_iff he |>.1 h.symm]
  · have hy : (y : ZMod r) ≠ 0 := by
      intro hy
      rw [hy, zero_pow he] at h
      exact hx ((pow_eq_zero_iff he).1 h)
    have hcard : (Nat.card (ZMod r)ˣ).Coprime e := by
      rwa [Nat.card_eq_fintype_card, ZMod.card_units]
    have hunits : Units.mk0 (x : ZMod r) hx ^ e = Units.mk0 (y : ZMod r) hy ^ e := Units.ext h
    exact congrArg Units.val (hcard.pow_left_bijective.injective hunits)

theorem modEq_of_modEq_primes (hn : Squarefree n)
    (h : ∀ r, r.Prime → r ∣ n → x ≡ y [MOD r]) : x ≡ y [MOD n] := by
  rw [Nat.modEq_iff_dvd, Int.natCast_dvd, ← Nat.prod_primeFactors_of_squarefree hn]
  refine Finset.prod_primes_dvd _ (fun r hr => (Nat.prime_of_mem_primeFactors hr).prime) ?_
  intro r hr
  rw [← Int.natCast_dvd, ← Nat.modEq_iff_dvd]
  exact h r (Nat.prime_of_mem_primeFactors hr) (Nat.dvd_of_mem_primeFactors hr)

theorem modEq_of_pow_modEq (hn : Squarefree n) (he : e ≠ 0)
    (hcoprime : ∀ r, r.Prime → r ∣ n → (r - 1).Coprime e) (h : x ^ e ≡ y ^ e [MOD n]) :
    x ≡ y [MOD n] :=
  modEq_of_modEq_primes hn fun r hr hdvd =>
    modEq_of_pow_modEq_prime hr he (hcoprime r hr hdvd) (h.of_dvd hdvd)

/-- There are as many powers as residues, so every residue is a power. -/
theorem existsUnique_pow_mod (hn : Squarefree n) (he : e ≠ 0)
    (hcoprime : ∀ r, r.Prime → r ∣ n → (r - 1).Coprime e) {c : Nat} (hc : c < n) :
    ∃! x, x < n ∧ x ^ e % n = c := by
  let power : Fin n → Fin n := fun x => ⟨x.val ^ e % n, Nat.mod_lt _ x.pos⟩
  have hinjective : Function.Injective power := by
    intro x y h
    have hpow : x.val ^ e ≡ y.val ^ e [MOD n] := congrArg Fin.val h
    exact Fin.ext ((modEq_of_pow_modEq hn he hcoprime hpow).eq_of_lt_of_lt x.isLt y.isLt)
  obtain ⟨x, hx⟩ := Finite.surjective_of_injective hinjective ⟨c, hc⟩
  have hxc : x.val ^ e % n = c := congrArg Fin.val hx
  refine ⟨x.val, ⟨x.isLt, hxc⟩, ?_⟩
  rintro y ⟨hlt, hy⟩
  exact (modEq_of_pow_modEq hn he hcoprime (hy.trans hxc.symm)).eq_of_lt_of_lt hlt x.isLt

end PowerMap

/-- The moduli under which decryption permutes the residues. -/
structure Permutable (n : Nat) : Prop where
  squarefree : Squarefree n
  not_dvd : ∀ r, r.Prime → r ∣ n → ¬ publicExponent ∣ r - 1

theorem prime_publicExponent : publicExponent.Prime := by
  unfold publicExponent
  norm_num

theorem Permutable.existsUnique_pow {n c : Nat} (h : Permutable n) (hc : c < n) :
    ∃! s, s < n ∧ s ^ publicExponent % n = c := by
  refine existsUnique_pow_mod h.squarefree prime_publicExponent.ne_zero (fun r hr hdvd => ?_) hc
  exact ((Nat.Prime.coprime_iff_not_dvd prime_publicExponent).2 (h.not_dvd r hr hdvd)).symm

/-! ## Accepted signatures -/

namespace Verifier

open Limbs

/-- The check of the inputs succeeds. -/
def Accepts (verifier : Verifier) (context : Context) (inputs : Inputs) : Prop :=
  ∃ w, ((verifier.generate inputs).run.run context).1 = .ok w

variable {layout : Layout} {verifier : Verifier}

/-- For a modulus and a digest that are well formed, a signature is accepted iff its limbs stand for a
reduced root of the padded message. -/
theorem accepts_iff_holds (h : verifier.For layout) {modulus digest : Limbs} {m d : Nat}
    (hmodulus : Holds layout m modulus) (hm : pow2 488 ≤ m) (hdigest : Holds layout d digest)
    (hd : d < pow2 256) (context : Context) (signature : Limbs) :
    verifier.Accepts context ⟨signature, modulus, digest⟩ ↔
      ∃ s, Holds layout s signature ∧ s < m ∧ s ^ publicExponent % m = Padding.encoded m d := by
  unfold Accepts
  rw [accepts_iff h, Inputs.misshapen?_eq_none_iff]
  constructor
  · rintro ⟨⟨hlength, _, _⟩, hwell, hgenuine⟩
    obtain ⟨hlt, hdecrypts⟩ := hgenuine
    dsimp only at hlt hdecrypts
    rw [hmodulus.value_eq] at hlt
    rw [hmodulus.value_eq, hdigest.value_eq] at hdecrypts
    exact ⟨_, ⟨hwell.signature_inRange, hlength, rfl⟩, hlt, hdecrypts⟩
  · rintro ⟨s, hs, hlt, hdecrypts⟩
    refine ⟨⟨hs.length_eq, hmodulus.length_eq, hdigest.length_eq⟩,
      ⟨hdigest.inRange, hmodulus.inRange, hs.inRange, ?_, ?_⟩, ⟨?_, ?_⟩⟩ <;> dsimp only
    · rwa [hdigest.value_eq]
    · rwa [hmodulus.value_eq]
    · rwa [hs.value_eq, hmodulus.value_eq]
    · rwa [hs.value_eq, hmodulus.value_eq, hdigest.value_eq]

/-- The one accepted signature is the split root of the padded message. -/
theorem exists_forall_accepts_iff (h : verifier.For layout) {modulus digest : Limbs} {m d : Nat}
    (hmodulus : Holds layout m modulus) (hm : pow2 488 ≤ m) (hpermutable : Permutable m)
    (hdigest : Holds layout d digest) (hd : d < pow2 256) :
    ∃ signature : Limbs, signature.length = layout.limbCount ∧ ∀ context other,
      verifier.Accepts context ⟨other, modulus, digest⟩ ↔ other = signature := by
  obtain ⟨s, ⟨hs, hpower⟩, hunique⟩ := hpermutable.existsUnique_pow (Padding.encoded_lt hm hd)
  have hholds := Holds.split (hs.trans hmodulus.lt)
  refine ⟨_, hholds.length_eq, fun context other => ?_⟩
  rw [accepts_iff_holds h hmodulus hm hdigest hd]
  constructor
  · rintro ⟨s', hother, hlt, hpower'⟩
    obtain rfl := hunique s' ⟨hlt, hpower'⟩
    exact hother.eq hholds
  · rintro rfl
    exact ⟨s, hholds, hs, hpower⟩

/-- The padded message that a signature decrypts to belongs to one digest. -/
theorem digest_eq_of_accepts (h : verifier.For layout) {modulus signature digest digest' : Limbs}
    {context context' : Context} (haccepts : verifier.Accepts context ⟨signature, modulus, digest⟩)
    (haccepts' : verifier.Accepts context' ⟨signature, modulus, digest'⟩) : digest = digest' := by
  obtain ⟨hshape, hwell, hgenuine⟩ := (accepts_iff h _ _).1 haccepts
  obtain ⟨hshape', hwell', hgenuine'⟩ := (accepts_iff h _ _).1 haccepts'
  obtain ⟨_, _, hlength⟩ := (Inputs.misshapen?_eq_none_iff layout _).1 hshape
  obtain ⟨_, _, hlength'⟩ := (Inputs.misshapen?_eq_none_iff layout _).1 hshape'
  have hvalue : value layout.limbBits digest = value layout.limbBits digest' :=
    Padding.encoded_injective _ (hgenuine.decrypts.symm.trans hgenuine'.decrypts)
  exact eq_of_value_eq hwell.digest_inRange hwell'.digest_inRange (hlength.trans hlength'.symm) hvalue

/-- Under a squarefree modulus with no prime `r` such that the public exponent divides `r - 1`, every
digest has exactly one accepted signature among all arrays, in whatever context the check runs.  Under
any modulus a signature is accepted for one digest at most. -/
theorem accepted_unique (h : ofLayout? layout = .ok verifier) :
    (∀ modulus digest : Limbs,
      modulus.length = layout.limbCount → InRange layout.limbBits modulus →
      pow2 488 ≤ value layout.limbBits modulus → Permutable (value layout.limbBits modulus) →
      digest.length = layout.limbCount → InRange layout.limbBits digest →
      value layout.limbBits digest < pow2 256 →
      ∃ signature : Limbs, signature.length = layout.limbCount ∧ ∀ context other,
        verifier.Accepts context ⟨other, modulus, digest⟩ ↔ other = signature) ∧
    ∀ (modulus signature digest digest' : Limbs) (context context' : Context),
      verifier.Accepts context ⟨signature, modulus, digest⟩ →
      verifier.Accepts context' ⟨signature, modulus, digest'⟩ → digest = digest' := by
  have hfor := for_of_ofLayout? h
  refine ⟨?_, ?_⟩
  · intro modulus digest hmodulus hmodulusRange hle hpermutable hdigest hdigestRange hlt
    exact exists_forall_accepts_iff hfor ⟨hmodulusRange, hmodulus, rfl⟩ hle hpermutable
      ⟨hdigestRange, hdigest, rfl⟩ hlt
  · intro modulus signature digest digest' context context' haccepts haccepts'
    exact digest_eq_of_accepts hfor haccepts haccepts'

/-! ## The sample -/

theorem le_of_dvd_sampleModulus {r : Nat} (hr : r.Prime) (h : r ∣ sampleModulus) : r ≤ 367 := by
  have hfactorial : sampleModulus ∣ Nat.factorial 367 := by decide +kernel
  exact hr.dvd_factorial.1 (h.trans hfactorial)

theorem permutable_sampleModulus : Permutable sampleModulus := by
  refine ⟨?_, fun r hr hdvd hexponent => ?_⟩
  · have hsquares : ∀ k < 368, 2 ≤ k → ¬ k * k ∣ sampleModulus := by decide +kernel
    rw [Nat.squarefree_iff_prime_squarefree]
    intro r hr hdvd
    have hle := le_of_dvd_sampleModulus hr (dvd_of_mul_left_dvd hdvd)
    exact hsquares r (Nat.lt_succ_of_le hle) hr.two_le hdvd
  · have hle := le_of_dvd_sampleModulus hr hdvd
    have hlarge : publicExponent ≤ r - 1 := Nat.le_of_dvd (Nat.sub_pos_of_lt hr.one_lt) hexponent
    unfold publicExponent at hlarge
    omega

theorem accepted_unique_sample :
    ∃ verifier, ofLayout? .standard = .ok verifier ∧ ∀ context,
      (∀ other, verifier.Accepts context ⟨other, split 121 32 sampleModulus, split 121 32 1⟩ ↔
        other = split 121 32 sampleSignature) ∧
      ∀ digest, verifier.Accepts context
        ⟨split 121 32 sampleSignature, split 121 32 sampleModulus, digest⟩ ↔
          digest = split 121 32 1 := by
  obtain ⟨verifier, hverifier⟩ := @exists_ofLayout? .standard (by decide)
  obtain ⟨hunique, hbinding⟩ := accepted_unique hverifier
  have haccepts : ∀ context, verifier.Accepts context
      (.ofSplits .standard sampleSignature sampleModulus 1) := fun context =>
    (accepts_iff (for_of_ofLayout? hverifier) _ _).2
      ⟨Inputs.misshapen?_ofSplits, sample_wellFormed, sample_genuine⟩
  have hvalue := (Holds.split sampleModulus_lt).value_eq
  obtain ⟨signature, _, hiff⟩ := hunique (split 121 32 sampleModulus) (split 121 32 1)
    (length_split _ _ _) sample_wellFormed.modulus_inRange sample_wellFormed.le_modulus
    (hvalue.symm ▸ permutable_sampleModulus) (length_split _ _ _) sample_wellFormed.digest_inRange
    sample_wellFormed.digest_lt
  refine ⟨verifier, hverifier, fun context => ⟨fun other => ?_, fun digest => ?_⟩⟩
  · have heq : split 121 32 sampleSignature = signature := (hiff context _).1 (haccepts context)
    rw [hiff, heq]
  · constructor
    · intro hdigest
      exact hbinding _ _ _ _ context context hdigest (haccepts context)
    · rintro rfl
      exact haccepts context

end Verifier

end RsaCircuit
