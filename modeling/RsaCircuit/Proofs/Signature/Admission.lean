import RsaCircuit.Proofs.Signature.Verdict
set_option autoImplicit false

/-!
# Admission of layouts

A layout is admitted if the lowest bits of the padding lie within it.  The topmost byte of a padded
message is zero, though, so the run of ones reaches eight bits less far than the layout does, and the
layouts of 481 to 488 bits are admitted without a message that could be padded under them.
-/

namespace RsaCircuit

namespace Padding

open Limbs

/-- Some modulus and digest have a padded message under the layout. -/
def Fillable (layout : Layout) : Prop :=
  ∃ (input : Input) (context : Context) (w : Witness),
    input.modulus.length = layout.limbCount ∧ input.digest.length = layout.limbCount ∧
      ((run layout input).exec context).1 = .ok w

theorem exists_ofLayout?_iff (layout : Layout) :
    (∃ padding, ofLayout? layout = .ok padding) ↔ 481 ≤ layout.totalBits := by
  constructor
  · rintro ⟨padding, h⟩
    unfold ofLayout? at h
    split at h
    · next hfits => exact hfits
    · cases h
  · intro h
    exact ⟨⟨layout, h⟩, dif_pos h⟩

theorem ofLayout?_eq_error_iff (layout : Layout) :
    ofLayout? layout = .error (.tooSmallForPadding layout.totalBits 481) ↔
      layout.totalBits < 481 := by
  constructor
  · intro h
    by_contra hfits
    obtain ⟨padding, hpadding⟩ := (exists_ofLayout?_iff layout).2 (Nat.le_of_not_lt hfits)
    rw [hpadding] at h
    cases h
  · intro h
    exact dif_neg (Nat.not_le_of_lt h)

/-- The shortest modulus that a message can be padded for has 489 bits. -/
theorem fillable_iff (layout : Layout) : Fillable layout ↔ 489 ≤ layout.totalBits := by
  constructor
  · rintro ⟨input, context, w, hmodulus, hdigest, hexec⟩
    rw [Run.exec_eq_ok_iff] at hexec
    have hdecides := run_decides (minModulusBits_le_of_run hexec) hmodulus hdigest
    have hpaddable : input.Paddable layout := by
      by_contra hnot
      obtain ⟨failure, hfailure⟩ := hdecides.fails hnot
      rw [hfailure] at hexec
      cases hexec
    have hlt := value_lt _ _ hpaddable.modulus_inRange
    rw [hmodulus] at hlt
    have hbits : bitLength (value layout.limbBits input.modulus) ≤ layout.totalBits :=
      (bitLength_le_iff _ _).2 hlt
    have hlong := (lt_bitLength_iff _ _).2 hpaddable.le_modulus
    exact hlong.trans_le hbits
  · intro h
    have hmodulus : pow2 488 < pow2 layout.totalBits := pow2_lt_pow2 h
    have hholds := Holds.split hmodulus
    have hzero : Holds layout 0 (split layout.limbBits layout.limbCount 0) :=
      Holds.split (pow2_pos _)
    let input : Input := ⟨split layout.limbBits layout.limbCount (pow2 488),
      split layout.limbBits layout.limbCount 0⟩
    have hpaddable : input.Paddable layout := by
      refine ⟨hzero.inRange, hholds.inRange, ?_, hholds.value_eq.ge⟩
      rw [hzero.value_eq]
      exact pow2_pos _
    have hfits : minModulusBits ≤ layout.totalBits := le_trans (by decide) h
    have hdecides : (run layout input).Decides _ _ :=
      run_decides hfits (length_split _ _ _) (length_split _ _ _)
    obtain ⟨w, houtcome, _⟩ := hdecides.answers hpaddable
    exact ⟨input, Context.ofRoot "main", w, length_split _ _ _, length_split _ _ _,
      Run.exec_of_outcome_ok houtcome _⟩

end Padding

namespace Verifier

theorem exists_ofLayout?_iff (layout : Layout) :
    (∃ verifier, ofLayout? layout = .ok verifier) ↔ 481 ≤ layout.totalBits := by
  constructor
  · rintro ⟨verifier, h⟩
    exact (for_of_ofLayout? h).fits
  · intro h
    exact exists_ofLayout? h

/-- Padding and verifier are admitted from 481 bits on, but messages can be padded from 489 bits on
only, so admission is exact for all layouts but those of 481 to 488 bits. -/
theorem admission_exact_iff (layout : Layout) :
    ((∃ padding, Padding.ofLayout? layout = .ok padding) ↔ 481 ≤ layout.totalBits) ∧
      (Padding.ofLayout? layout = .error (.tooSmallForPadding layout.totalBits 481) ↔
        layout.totalBits < 481) ∧
      ((∃ verifier, ofLayout? layout = .ok verifier) ↔ 481 ≤ layout.totalBits) ∧
      (Padding.Fillable layout ↔ 489 ≤ layout.totalBits) ∧
      (((∃ padding, Padding.ofLayout? layout = .ok padding) ↔ Padding.Fillable layout) ↔
        layout.totalBits < 481 ∨ 489 ≤ layout.totalBits) := by
  refine ⟨Padding.exists_ofLayout?_iff layout, Padding.ofLayout?_eq_error_iff layout,
    exists_ofLayout?_iff layout, Padding.fillable_iff layout, ?_⟩
  rw [Padding.exists_ofLayout?_iff, Padding.fillable_iff]
  omega

/-- Eight limbs of 61 bits are admitted, and no message can be padded in them. -/
theorem admitted_not_fillable : ∃ layout, Layout.ofSizes? 61 8 = .ok layout ∧
    (∃ padding, Padding.ofLayout? layout = .ok padding) ∧ ¬ Padding.Fillable layout := by
  refine ⟨⟨61, 8, by decide, by decide, by decide⟩, rfl, ?_, ?_⟩
  · rw [Padding.exists_ofLayout?_iff]
    decide
  · rw [Padding.fillable_iff]
    decide

end Verifier

end RsaCircuit
