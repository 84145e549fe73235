import RsaCircuit.Signature.Generator
import RsaCircuit.Proofs.Signature.Verdict
set_option autoImplicit false

/-!
# Witnesses of byte strings

From byte strings to a witness nothing is decided but what the integers decide: each has to fit into
the limbs of the layout, and then the verdict is the one on their limbs.
-/

namespace RsaCircuit

/-- The error of an integer that does not fit into the limbs of a layout. -/
def overflow (layout : Layout) (signal : InputSignal) (v : Nat) : WitnessError :=
  .inputOverflow signal (.overflow (bitLength v) layout.limbBits layout.limbCount)

/-- Three integers for which there is a witness in a layout. -/
structure Acceptable (layout : Layout) (signature modulus digest : Nat) : Prop where
  signature_fits : signature < pow2 layout.totalBits
  modulus_fits : modulus < pow2 layout.totalBits
  digest_fits : digest < pow2 layout.totalBits
  le_modulus : pow2 488 ≤ modulus
  digest_lt : digest < pow2 256
  signature_lt : signature < modulus
  decrypts : signature ^ publicExponent % modulus = Padding.encoded modulus digest

namespace Inputs

variable {layout : Layout} {signal : InputSignal} {v : Nat}

theorem encode?_of_lt (h : v < pow2 layout.totalBits) :
    encode? layout signal v = .ok (Limbs.split layout.limbBits layout.limbCount v) := by
  rw [encode?, Limbs.ofNat?_of_lt h]
  rfl

theorem encode?_of_le (h : pow2 layout.totalBits ≤ v) :
    encode? layout signal v = .error (overflow layout signal v) := by
  rw [encode?, Limbs.ofNat?_of_le h]
  rfl

end Inputs

namespace Generator

/-- A generator has a witness iff its verifier has one. -/
theorem generate_accepts_iff {layout : Layout} {verifier : Verifier}
    (h : Verifier.ofLayout? layout = .ok verifier) (inputs : Inputs) :
    (∃ w, ((ofLayout layout).generate inputs).outcome = .ok w) ↔
      ∃ w, ((verifier.generate inputs).run.run (Context.ofRoot root)).1 = .ok w := by
  have hgenerate : ((ofLayout layout).generate inputs).outcome =
      ((verifier.generate inputs).run.run (Context.ofRoot root)).1.map fun check =>
        { check,
          constraintCount :=
            ((verifier.generate inputs).run.run (Context.ofRoot root)).2.constraintCount,
          instances :=
            ((verifier.generate inputs).run.run (Context.ofRoot root)).2.profile.entries } := by
    unfold generate
    rw [show (ofLayout layout).layout = layout from rfl, h]
    rfl
  rw [hgenerate]
  cases ((verifier.generate inputs).run.run (Context.ofRoot root)).1 with
  | ok w => exact iff_of_true ⟨_, rfl⟩ ⟨w, rfl⟩
  | error stop =>
    refine iff_of_false ?_ ?_
    · rintro ⟨w, hw⟩
      cases hw
    · rintro ⟨w, hw⟩
      cases hw

/-- What byte strings give whose integers fit. -/
theorem generateBytes_of_lt {layout : Layout} {signature modulus digest : List UInt8}
    (hs : ofBigEndian signature < pow2 layout.totalBits)
    (hm : ofBigEndian modulus < pow2 layout.totalBits)
    (hd : ofBigEndian digest < pow2 layout.totalBits) :
    (ofLayout layout).generateBytes signature modulus digest =
      (ofLayout layout).generate (.ofSplits layout (ofBigEndian signature) (ofBigEndian modulus)
        (ofBigEndian digest)) := by
  have hinputs : Inputs.ofBytes? layout signature modulus digest =
      .ok (.ofSplits layout (ofBigEndian signature) (ofBigEndian modulus) (ofBigEndian digest)) := by
    unfold Inputs.ofBytes? Inputs.ofIntegers?
    rw [Inputs.encode?_of_lt hs, Inputs.encode?_of_lt hm, Inputs.encode?_of_lt hd]
    rfl
  unfold generateBytes
  rw [show (ofLayout layout).layout = layout from rfl, hinputs]

/-- The first integer that does not fit is named. -/
theorem generateBytes_of_overflow {layout : Layout} {signature modulus digest : List UInt8}
    {e : WitnessError} (h : Inputs.ofBytes? layout signature modulus digest = .error e) :
    ((ofLayout layout).generateBytes signature modulus digest).outcome = .error (.error e) := by
  unfold generateBytes
  rw [show (ofLayout layout).layout = layout from rfl, h]
  rfl

theorem generateBytes_overflow {layout : Layout} {signature modulus digest : List UInt8} :
    (pow2 layout.totalBits ≤ ofBigEndian signature →
      ((ofLayout layout).generateBytes signature modulus digest).outcome =
        .error (.error (overflow layout .signature (ofBigEndian signature)))) ∧
    (ofBigEndian signature < pow2 layout.totalBits →
      pow2 layout.totalBits ≤ ofBigEndian modulus →
        ((ofLayout layout).generateBytes signature modulus digest).outcome =
          .error (.error (overflow layout .modulus (ofBigEndian modulus)))) ∧
    (ofBigEndian signature < pow2 layout.totalBits →
      ofBigEndian modulus < pow2 layout.totalBits →
        pow2 layout.totalBits ≤ ofBigEndian digest →
          ((ofLayout layout).generateBytes signature modulus digest).outcome =
            .error (.error (overflow layout .digest (ofBigEndian digest)))) := by
  refine ⟨fun hs => ?_, fun hs hm => ?_, fun hs hm hd => ?_⟩
  · apply generateBytes_of_overflow
    unfold Inputs.ofBytes? Inputs.ofIntegers?
    rw [Inputs.encode?_of_le hs]
    rfl
  · apply generateBytes_of_overflow
    unfold Inputs.ofBytes? Inputs.ofIntegers?
    rw [Inputs.encode?_of_lt hs, Inputs.encode?_of_le hm]
    rfl
  · apply generateBytes_of_overflow
    unfold Inputs.ofBytes? Inputs.ofIntegers?
    rw [Inputs.encode?_of_lt hs, Inputs.encode?_of_lt hm, Inputs.encode?_of_le hd]
    rfl

theorem generateBytes_accepts_iff {layout : Layout} (hfits : minModulusBits ≤ layout.totalBits)
    (signature modulus digest : List UInt8) :
    (∃ w, ((ofLayout layout).generateBytes signature modulus digest).outcome = .ok w) ↔
      Acceptable layout (ofBigEndian signature) (ofBigEndian modulus) (ofBigEndian digest) := by
  obtain ⟨hoverSignature, hoverModulus, hoverDigest⟩ :=
    @generateBytes_overflow layout signature modulus digest
  obtain ⟨verifier, hverifier⟩ := Verifier.exists_ofLayout? hfits
  by_cases hfit : ofBigEndian signature < pow2 layout.totalBits ∧
      ofBigEndian modulus < pow2 layout.totalBits ∧ ofBigEndian digest < pow2 layout.totalBits
  · obtain ⟨hs, hm, hd⟩ := hfit
    rw [generateBytes_of_lt hs hm hd, generate_accepts_iff hverifier,
      Verifier.accepts_iff (Verifier.for_of_ofLayout? hverifier),
      Inputs.wellFormed_ofSplits_iff hm hd, Inputs.genuine_ofSplits_iff hs hm hd]
    constructor
    · rintro ⟨_, ⟨hdigest, hmodulus⟩, hlt, hdecrypts⟩
      exact ⟨hs, hm, hd, hmodulus, hdigest, hlt, hdecrypts⟩
    · rintro ⟨_, _, _, hmodulus, hdigest, hlt, hdecrypts⟩
      exact ⟨Inputs.misshapen?_ofSplits, ⟨hdigest, hmodulus⟩, hlt, hdecrypts⟩
  · refine iff_of_false ?_ fun haccept =>
      hfit ⟨haccept.signature_fits, haccept.modulus_fits, haccept.digest_fits⟩
    rintro ⟨w, hw⟩
    rcases Nat.lt_or_ge (ofBigEndian signature) (pow2 layout.totalBits) with hs | hs
    · rcases Nat.lt_or_ge (ofBigEndian modulus) (pow2 layout.totalBits) with hm | hm
      · rcases Nat.lt_or_ge (ofBigEndian digest) (pow2 layout.totalBits) with hd | hd
        · exact hfit ⟨hs, hm, hd⟩
        · rw [hoverDigest hs hm hd] at hw
          cases hw
      · rw [hoverModulus hs hm] at hw
        cases hw
    · rw [hoverSignature hs] at hw
      cases hw

/-- Byte strings have a witness iff their integers are acceptable, and otherwise the first one that
does not fit into the limbs of the layout is named, if there is one. -/
theorem generateBytes_outcome {layout : Layout} {padding : Padding}
    (h : Padding.ofLayout? layout = .ok padding) (signature modulus digest : List UInt8) :
    let outcome := ((ofLayout layout).generateBytes signature modulus digest).outcome
    let s := ofBigEndian signature
    let m := ofBigEndian modulus
    let d := ofBigEndian digest
    ((∃ w, outcome = .ok w) ↔ Acceptable layout s m d) ∧
      (pow2 layout.totalBits ≤ s → outcome = .error (.error (overflow layout .signature s))) ∧
      (s < pow2 layout.totalBits → pow2 layout.totalBits ≤ m →
        outcome = .error (.error (overflow layout .modulus m))) ∧
      (s < pow2 layout.totalBits → m < pow2 layout.totalBits → pow2 layout.totalBits ≤ d →
        outcome = .error (.error (overflow layout .digest d))) ∧
      ((∃ w, (generateWitness signature modulus digest).outcome = .ok w) ↔
        Acceptable .standard s m d) := by
  intro outcome s m d
  have hfits : minModulusBits ≤ layout.totalBits := by
    unfold Padding.ofLayout? at h
    split at h
    · next hle => exact hle
    · cases h
  obtain ⟨hsignature, hmodulus, hdigest⟩ :=
    @generateBytes_overflow layout signature modulus digest
  exact ⟨generateBytes_accepts_iff hfits signature modulus digest, hsignature, hmodulus, hdigest,
    @generateBytes_accepts_iff .standard (by decide) signature modulus digest⟩

/-- The sample modulus as bytes. -/
def sampleModulusBytes : List UInt8 :=
  [0x0f, 0x38, 0x9b, 0x45, 0x5d, 0x0e, 0x5c, 0x30, 0x08, 0xaa, 0xf2, 0xd3, 0x30, 0x5e, 0xd5, 0xbc,
    0x5a, 0xad, 0x78, 0xaa, 0x5d, 0xe8, 0xb6, 0xd1, 0xbb, 0x87, 0xed, 0xf1, 0x1e, 0x26, 0x55, 0xb6,
    0xa8, 0xec, 0x19, 0xb8, 0x9c, 0x3a, 0x30, 0x04, 0xe4, 0x8e, 0x95, 0x5d, 0x4e, 0xf0, 0x5b, 0xe4,
    0xde, 0xfd, 0x11, 0x9a, 0x49, 0x12, 0x48, 0x77, 0xe6, 0xff, 0xa3, 0xa9, 0xd4, 0xd2]

/-- The sample signature as bytes. -/
def sampleSignatureBytes : List UInt8 :=
  [0x0d, 0x98, 0x6e, 0x1e, 0x96, 0x73, 0x6b, 0x68, 0xe3, 0x04, 0x86, 0xf4, 0x72, 0x50, 0x8a, 0x72,
    0x83, 0xeb, 0xc7, 0x23, 0xf2, 0xbc, 0x37, 0xd9, 0xf3, 0x9e, 0x76, 0x05, 0x32, 0x8d, 0x43, 0xf3,
    0xb0, 0xe8, 0x4e, 0x0a, 0x74, 0x49, 0xbd, 0x79, 0xf4, 0x54, 0x13, 0xe5, 0x33, 0xf3, 0xe5, 0xbf,
    0x69, 0x0a, 0xec, 0x6f, 0xcf, 0x1d, 0x47, 0xf2, 0xd5, 0x5d, 0xe4, 0xa0, 0x2a, 0x55]

theorem generateBytes_outcome_sample :
    ∃ padding, Padding.ofLayout? .standard = .ok padding ∧
      (∃ w, ((ofLayout .standard).generateBytes sampleSignatureBytes sampleModulusBytes [1]).outcome =
        .ok w) ∧
      ∃ w, (generateWitness sampleSignatureBytes sampleModulusBytes [1]).outcome = .ok w := by
  have hsignature : ofBigEndian sampleSignatureBytes = Verifier.sampleSignature := by decide +kernel
  have hmodulus : ofBigEndian sampleModulusBytes = Verifier.sampleModulus := by decide +kernel
  have hdigest : ofBigEndian [1] = 1 := rfl
  have hlt := Verifier.sampleSignature_lt
  have haccept : Acceptable .standard (ofBigEndian sampleSignatureBytes)
      (ofBigEndian sampleModulusBytes) (ofBigEndian [1]) := by
    rw [hsignature, hmodulus, hdigest]
    exact ⟨hlt.trans Verifier.sampleModulus_lt, Verifier.sampleModulus_lt, by decide +kernel,
      by decide +kernel, by decide +kernel, hlt, Verifier.sampleSignature_decrypts⟩
  have hpadding : Padding.ofLayout? .standard = .ok ⟨.standard, by decide⟩ := rfl
  obtain ⟨hgenerate, _, _, _, hwitness⟩ :=
    generateBytes_outcome hpadding sampleSignatureBytes sampleModulusBytes [1]
  exact ⟨_, hpadding, hgenerate.2 haccept, hwitness.2 haccept⟩

end Generator

end RsaCircuit
