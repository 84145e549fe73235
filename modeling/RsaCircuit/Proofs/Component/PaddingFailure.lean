import RsaCircuit.Proofs.Component.Padding
set_option autoImplicit false

/-!
# Where a padding fails

A padding splits the limbs of both integers first, at each position the digest before the modulus, so
the first limb out of range in this order names the failing instance (`Padding.labelledLimbs`).  With
all limbs in range the padding fails in its own checks: a digest that is too wide fails the check
that it has no bits above its width, before a modulus that is too short fails the check of the
lowest bits of the run of ones.  The main statement is `Padding.pads_exactly`.
-/

namespace RsaCircuit

namespace Padding

open Limbs

variable {layout : Layout}

theorem layout_of_ofLayout? {padding : Padding} (h : ofLayout? layout = .ok padding) :
    padding.layout = layout ∧ minModulusBits ≤ layout.totalBits := by
  unfold ofLayout? at h
  split at h
  · next hfits =>
    obtain rfl := Except.ok.inj h
    exact ⟨rfl, hfits⟩
  · cases h

/-! ## Limbs out of range -/

/-- The limbs of both integers in the order of their splits, each beside the label of its split, for
the positions from `i` up. -/
def labelledLimbs (i : Nat) (pairs : List (Scalar × Scalar)) : List (String × Scalar) :=
  (pairs.zipIdx i).flatMap fun (pair, j) =>
    [(s!"base_message_n2b[{j}]", pair.1), (s!"modulus_n2b[{j}]", pair.2)]

theorem labelledLimbs_cons (i : Nat) (pair : Scalar × Scalar) (pairs : List (Scalar × Scalar)) :
    labelledLimbs i (pair :: pairs) =
      (s!"base_message_n2b[{i}]", pair.1) :: (s!"modulus_n2b[{i}]", pair.2) ::
        labelledLimbs (i + 1) pairs := rfl

/-- All limbs of both integers are among the labelled ones. -/
theorem forall_labelledLimbs_lt_iff (width i : Nat) (pairs : List (Scalar × Scalar)) :
    (∀ entry ∈ labelledLimbs i pairs, entry.2.val < pow2 width) ↔
      InRange width (pairs.map Prod.fst) ∧ InRange width (pairs.map Prod.snd) := by
  induction pairs generalizing i with
  | nil => exact iff_of_true (fun _ hentry => nomatch hentry) ⟨inRange_nil width, inRange_nil width⟩
  | cons pair pairs ih =>
    rw [labelledLimbs_cons, List.forall_mem_cons, List.forall_mem_cons, ih, List.map_cons,
      List.map_cons, inRange_cons, inRange_cons]
    tauto

/-- Some labelled limb is the first out of range unless all limbs are in range. -/
theorem exists_first_of_not_inRange {width : Nat} {pairs : List (Scalar × Scalar)}
    (h : ¬ (InRange width (pairs.map Prod.fst) ∧ InRange width (pairs.map Prod.snd))) (i : Nat) :
    ∃ entry, (labelledLimbs i pairs).find? (fun entry => pow2 width ≤ entry.2.val) = some entry := by
  rw [← forall_labelledLimbs_lt_iff width i] at h
  push Not at h
  obtain ⟨entry, hentry, hle⟩ := h
  exact Option.isSome_iff_exists.1 (List.find?_isSome.2 ⟨entry, hentry, decide_eq_true hle⟩)

/-- The failure of the split of a limb out of range. -/
def splitFailure (width : Nat) (label : String) (limb : Scalar) : Failure :=
  ⟨[label], .unequal "bits add up to the input" (Scalar.ofNat (limb.val % pow2 width)) limb⟩

theorem split_fails {width : Nat} {limb : Scalar} (h : pow2 width ≤ limb.val) (label : String) :
    ((BitSplit.component width).place label limb).FailsWith fun failure =>
      failure = splitFailure width label limb := by
  apply Run.FailsWith.place
  apply (BitSplit.fails h).weaken
  rintro _ rfl
  rfl

/-- The first limb out of range decides the failure of the splits. -/
theorem splitFrom_fails {width : Nat} {label : String} {limb : Scalar} (i : Nat)
    {pairs : List (Scalar × Scalar)}
    (h : (labelledLimbs i pairs).find? (fun entry => pow2 width ≤ entry.2.val) =
      some (label, limb)) :
    (splitFrom (BitSplit.component width) i pairs).FailsWith fun failure =>
      failure = splitFailure width label limb := by
  induction pairs generalizing i with
  | nil => cases h
  | cons pair pairs ih =>
    rw [labelledLimbs_cons] at h
    by_cases hdigest : pow2 width ≤ pair.1.val
    · rw [List.find?_cons_of_pos (by simpa using hdigest)] at h
      obtain ⟨rfl, rfl⟩ := Prod.mk.inj (Option.some.inj h)
      exact (split_fails hdigest _).bind_left
    rw [List.find?_cons_of_neg (by simpa using hdigest)] at h
    apply Run.FailsWith.bind_right (BitSplit.decides width pair.1).place (Nat.lt_of_not_le hdigest)
    intro _ _
    by_cases hmodulus : pow2 width ≤ pair.2.val
    · rw [List.find?_cons_of_pos (by simpa using hmodulus)] at h
      obtain ⟨rfl, rfl⟩ := Prod.mk.inj (Option.some.inj h)
      exact (split_fails hmodulus _).bind_left
    rw [List.find?_cons_of_neg (by simpa using hmodulus)] at h
    apply Run.FailsWith.bind_right (BitSplit.decides width pair.2).place (Nat.lt_of_not_le hmodulus)
    intro _ _
    exact (ih (i + 1) h).bind_left

/-! ## Bits out of place -/

/-- A digest that is too wide has a bit above its width. -/
theorem encode_fails_of_wide_digest (hfits : minModulusBits ≤ layout.totalBits)
    {modulus digest : List Scalar} (hdigest : InRange 1 digest)
    (hdigestLength : digest.length = layout.totalBits)
    (hwide : pow2 RsaCircuit.digestBits ≤ value 1 digest) :
    (encode layout modulus digest).FailsWith fun failure =>
      failure = ⟨[], .unequal "digest has no bits above 256" 1 0⟩ := by
  rw [encode, Run.ofDomain_bind (slice_digest_eq hfits hdigestLength)]
  have hnot : ¬ ∀ bit ∈ digest.drop RsaCircuit.digestBits, bit = 0 := by
    rw [forall_drop_eq_zero_iff hdigest]
    exact Nat.not_lt_of_le hwide
  apply Run.FailsWith.bind_left
  refine Run.FailsWith.each (fun _ _ => Run.Decides.check) ?_ hnot
  intro bit hbit hne
  obtain rfl : bit = 1 := (Scalar.eq_zero_or_one (hdigest.drop _ bit hbit)).resolve_left hne
  exact Run.FailsWith.check hne

/-- A modulus that is too short leaves a zero among the lowest bits of the run of ones. -/
theorem encode_fails_of_short_modulus (hfits : minModulusBits ≤ layout.totalBits)
    {modulus digest : List Scalar} (hmodulus : InRange 1 modulus) (hdigest : InRange 1 digest)
    (hmodulusLength : modulus.length = layout.totalBits)
    (hdigestLength : digest.length = layout.totalBits)
    (hdigestlt : value 1 digest < pow2 RsaCircuit.digestBits)
    (hshort : value 1 modulus < pow2 minModulusTop) :
    (encode layout modulus digest).FailsWith fun failure =>
      failure = ⟨[], .unequal "padding has at least 65 one-bits" 0 1⟩ := by
  rw [encode, Run.ofDomain_bind (slice_digest_eq hfits hdigestLength)]
  apply Run.FailsWith.bind_right (assertNoDigest_decides hdigest _) hdigestlt
  intro _ _
  rw [Run.ofDomain_bind (bitsAboveSeparator_eq hfits hmodulusLength)]
  apply Run.FailsWith.bind_right (zeroTests_decides _ _) trivial
  intro zeroTests htests
  rw [htests]
  obtain ⟨bits, hassemble, hbitsRange, hbitsLength, _, hrun⟩ :=
    assemble_ones_eq hfits hmodulus hdigest hmodulusLength hdigestLength hdigestlt
  rw [Run.ofDomain_bind hassemble, Run.ofDomain_bind (slice_padding_eq hfits hbitsLength)]
  have hnot : ¬ ∀ bit ∈ (bits.take minModulusBits).drop separatorEnd, bit = 1 := by
    rw [forall_padding_eq_one_iff hbitsRange (hfits.trans hbitsLength.ge) hrun]
    exact Nat.not_le_of_lt hshort
  apply Run.FailsWith.bind_left
  refine Run.FailsWith.each (fun _ _ => Run.Decides.check) ?_ hnot
  intro bit hbit hne
  obtain rfl : bit = 0 :=
    (Scalar.eq_zero_or_one ((hbitsRange.take _).drop _ bit hbit)).resolve_right hne
  exact Run.FailsWith.check hne

/-! ## The component -/

section Pad

variable {modulus digest : Limbs} (hmodulus : modulus.length = layout.limbCount)
  (hdigest : digest.length = layout.limbCount)

include hmodulus hdigest

/-- Some limb out of range is the first one, and the split of it fails. -/
theorem pad_fails_of_not_inRange
    (hnot : ¬ (InRange layout.limbBits digest ∧ InRange layout.limbBits modulus)) :
    ∃ label limb, (labelledLimbs 0 (digest.zip modulus)).find?
        (fun entry => pow2 layout.limbBits ≤ entry.2.val) = some (label, limb) ∧
      (pad layout ⟨modulus, digest⟩).FailsWith fun failure =>
        failure = splitFailure layout.limbBits label limb := by
  have hlengths : digest.length = modulus.length := hdigest.trans hmodulus.symm
  have hpairs : ¬ (InRange layout.limbBits ((digest.zip modulus).map Prod.fst) ∧
      InRange layout.limbBits ((digest.zip modulus).map Prod.snd)) := by
    rw [List.map_fst_zip hlengths.le, List.map_snd_zip hlengths.ge]
    exact hnot
  obtain ⟨⟨label, limb⟩, hfirst⟩ := exists_first_of_not_inRange hpairs 0
  refine ⟨label, limb, hfirst, ?_⟩
  rw [pad, Run.ofDomain_bind (zip?_of_length hlengths)]
  exact (splitFrom_fails 0 hfirst).bind_left

section InRange

variable (hdigestRange : InRange layout.limbBits digest)
  (hmodulusRange : InRange layout.limbBits modulus)

include hdigestRange hmodulusRange

/-- With all limbs in range the padding fails where the encoding of the bits fails. -/
theorem pad_fails_of_encode {kind : Failure → Prop}
    (h : ∀ modulusBits digestBits, BitsOf layout modulus modulusBits →
      BitsOf layout digest digestBits → (encode layout modulusBits digestBits).FailsWith kind) :
    (pad layout ⟨modulus, digest⟩).FailsWith kind := by
  have hlengths : digest.length = modulus.length := hdigest.trans hmodulus.symm
  rw [pad, Run.ofDomain_bind (zip?_of_length hlengths)]
  apply Run.FailsWith.bind_right (splitFrom_zip_decides layout.limbBits hlengths)
    ⟨hdigestRange, hmodulusRange⟩
  intro splits hsplit
  obtain ⟨hdigestBits, hmodulusBits⟩ := bitsOf_splits hdigest hmodulus hsplit
  exact (h _ _ hmodulusBits hdigestBits).bind_left

theorem pad_fails_of_wide_digest (hfits : minModulusBits ≤ layout.totalBits)
    (hwide : pow2 RsaCircuit.digestBits ≤ value layout.limbBits digest) :
    (pad layout ⟨modulus, digest⟩).FailsWith fun failure =>
      failure = ⟨[], .unequal "digest has no bits above 256" 1 0⟩ := by
  apply pad_fails_of_encode hmodulus hdigest hdigestRange hmodulusRange
  intro _ _ _ hdigestBits
  refine encode_fails_of_wide_digest hfits hdigestBits.inRange hdigestBits.length_eq ?_
  rw [hdigestBits.value_eq hdigestRange]
  exact hwide

theorem pad_fails_of_short_modulus (hfits : minModulusBits ≤ layout.totalBits)
    (hlt : value layout.limbBits digest < pow2 RsaCircuit.digestBits)
    (hshort : value layout.limbBits modulus < pow2 minModulusTop) :
    (pad layout ⟨modulus, digest⟩).FailsWith fun failure =>
      failure = ⟨[], .unequal "padding has at least 65 one-bits" 0 1⟩ := by
  apply pad_fails_of_encode hmodulus hdigest hdigestRange hmodulusRange
  intro _ _ hmodulusBits hdigestBits
  refine encode_fails_of_short_modulus hfits hmodulusBits.inRange hdigestBits.inRange
    hmodulusBits.length_eq hdigestBits.length_eq ?_ ?_
  · rw [hdigestBits.value_eq hdigestRange]
    exact hlt
  · rw [hmodulusBits.value_eq hmodulusRange]
    exact hshort

end InRange

end Pad

/-- A padding has a result iff all limbs are in range, the digest is not too wide and the modulus
leaves room for the padding.  The result is then the encoded message, which is below the modulus.
Otherwise the padding fails at the first limb out of range, and with all limbs in range at the check
of the digest, and then at the check of the run of ones. -/
theorem pads_exactly {padding : Padding} (hpadding : ofLayout? layout = .ok padding)
    (modulus digest : Limbs) (context : Context) (hmodulus : modulus.length = layout.limbCount)
    (hdigest : digest.length = layout.limbCount) :
    let m := value layout.limbBits modulus
    let d := value layout.limbBits digest
    let top := (bitLength m - 1) / 8
    let result := ((padding.component.run ⟨modulus, digest⟩).exec context).1
    ((∃ w, result = .ok w) ↔ InRange layout.limbBits digest ∧ InRange layout.limbBits modulus ∧
        d < pow2 256 ∧ pow2 488 ≤ m) ∧
      (∀ w, result = .ok w → InRange layout.limbBits w.paddedMessage ∧
        value layout.limbBits w.paddedMessage = pow2 (8 * top - 8) +
          (pow2 (8 * top - 8) - pow2 416) + ofBigEndian digestHeader * pow2 256 + d ∧
        value layout.limbBits w.paddedMessage < m) ∧
      (¬ (InRange layout.limbBits digest ∧ InRange layout.limbBits modulus) →
        ∃ label limb, (labelledLimbs 0 (digest.zip modulus)).find?
            (fun entry => pow2 layout.limbBits ≤ entry.2.val) = some (label, limb) ∧
          ∃ e, result = .error (.error e) ∧ e.path = label :: context.path ∧
            e.cause = .unequal "bits add up to the input"
              (Scalar.ofNat (limb.val % pow2 layout.limbBits)) limb) ∧
      (InRange layout.limbBits digest → InRange layout.limbBits modulus → pow2 256 ≤ d →
        ∃ e, result = .error (.error e) ∧ e.path = context.path ∧
          e.cause = .unequal "digest has no bits above 256" 1 0) ∧
      (InRange layout.limbBits digest → InRange layout.limbBits modulus → d < pow2 256 →
        m < pow2 488 →
        ∃ e, result = .error (.error e) ∧ e.path = context.path ∧
          e.cause = .unequal "padding has at least 65 one-bits" 0 1) := by
  obtain ⟨rfl, hfits⟩ := layout_of_ofLayout? hpadding
  intro m d top result
  have hrun : padding.component.run ⟨modulus, digest⟩ = pad padding.layout ⟨modulus, digest⟩ :=
    run_eq_pad hmodulus hdigest
  have hdecides : (pad padding.layout ⟨modulus, digest⟩).Decides _ _ :=
    pad_decides hfits hmodulus hdigest
  have hresult : result = ((pad padding.layout ⟨modulus, digest⟩).exec context).1 := by rw [← hrun]
  rw [hresult]
  refine ⟨?_, ?_, ?_, ?_, ?_⟩
  · rw [hdecides.exec_ok_iff context]
    constructor
    · intro h
      exact ⟨h.digest_inRange, h.modulus_inRange, h.digest_lt, h.le_modulus⟩
    · rintro ⟨hd, hm, hlt, hle⟩
      exact ⟨hd, hm, hlt, hle⟩
  · intro w hw
    obtain ⟨hpaddable, hholds⟩ := hdecides.of_exec_ok hw
    refine ⟨hholds.inRange, hholds.value_eq, ?_⟩
    rw [hholds.value_eq]
    exact encoded_lt hpaddable.le_modulus hpaddable.digest_lt
  · intro hnot
    obtain ⟨label, limb, hfirst, hfails⟩ := pad_fails_of_not_inRange hmodulus hdigest hnot
    exact ⟨label, limb, hfirst, hfails.exec_eq context⟩
  · intro hd hm hwide
    exact (pad_fails_of_wide_digest hmodulus hdigest hd hm hfits hwide).exec_eq context
  · intro hd hm hlt hshort
    exact (pad_fails_of_short_modulus hmodulus hdigest hd hm hfits hlt hshort).exec_eq context

/-- The padding of the standard layout. -/
def standard : Padding := ⟨.standard, by decide⟩

theorem pads_exactly_sample :
    (∃ w, ((standard.component.run ⟨split 121 32 (2 ^ 488), split 121 32 5⟩).exec
        (Context.ofRoot "main")).1 = .ok w ∧
      value 121 w.paddedMessage =
        pow2 480 + (pow2 480 - pow2 416) + ofBigEndian digestHeader * pow2 256 + 5) ∧
    (∃ e, ((standard.component.run ⟨split 122 32 (2 ^ 243), split 121 32 5⟩).exec
        (Context.ofRoot "main")).1 = .error (.error e) ∧ e.path = ["modulus_n2b[1]", "main"]) ∧
    (∃ e, ((standard.component.run ⟨split 121 32 7, split 121 32 (2 ^ 256)⟩).exec
        (Context.ofRoot "main")).1 = .error (.error e) ∧
      e.cause = .unequal "digest has no bits above 256" 1 0) ∧
    ∃ e, ((standard.component.run ⟨split 121 32 (2 ^ 488 - 1), split 121 32 5⟩).exec
        (Context.ofRoot "main")).1 = .error (.error e) ∧
      e.cause = .unequal "padding has at least 65 one-bits" 0 1 := by
  have hpadding : ofLayout? .standard = .ok standard := rfl
  have hrange : ∀ v, InRange 121 (split 121 32 v) := inRange_split (by decide) 32
  have hlength := fun width v => length_split width 32 v
  refine ⟨?_, ?_, ?_, ?_⟩
  · obtain ⟨hiff, hok, _⟩ := pads_exactly hpadding (split 121 32 (2 ^ 488)) (split 121 32 5)
      (Context.ofRoot "main") (hlength _ _) (hlength _ _)
    obtain ⟨w, hw⟩ := hiff.2 ⟨hrange _, hrange _, by decide +kernel, by decide +kernel⟩
    obtain ⟨_, hvalue, _⟩ := hok w hw
    have hmodulus : value Layout.standard.limbBits (split 121 32 (2 ^ 488)) = 2 ^ 488 := by
      decide +kernel
    have hdigest : value Layout.standard.limbBits (split 121 32 5) = 5 := by decide +kernel
    have hbits : bitLength (2 ^ 488) = 489 := by decide +kernel
    have htop : 8 * ((489 - 1) / 8) - 8 = 480 := rfl
    rw [hmodulus, hdigest, hbits, htop] at hvalue
    exact ⟨w, hw, hvalue⟩
  · obtain ⟨_, _, hlimb, _⟩ := pads_exactly hpadding (split 122 32 (2 ^ 243))
      (split 121 32 5) (Context.ofRoot "main") (hlength _ _) (hlength _ _)
    obtain ⟨label, limb, hfirst, e, hresult, hpath, _⟩ := hlimb (by decide +kernel)
    have hlabel : (label, limb) = ("modulus_n2b[1]", ((2 ^ 121 : Nat) : Scalar)) :=
      Option.some.inj (hfirst.symm.trans (by decide +kernel))
    exact ⟨e, hresult, (Prod.mk.inj hlabel).1 ▸ hpath⟩
  · obtain ⟨_, _, _, hwide, _⟩ := pads_exactly hpadding (split 121 32 7) (split 121 32 (2 ^ 256))
      (Context.ofRoot "main") (hlength _ _) (hlength _ _)
    obtain ⟨e, hresult, _, hcause⟩ := hwide (hrange _) (hrange _) (by decide +kernel)
    exact ⟨e, hresult, hcause⟩
  · obtain ⟨_, _, _, _, hshort⟩ := pads_exactly hpadding (split 121 32 (2 ^ 488 - 1))
      (split 121 32 5) (Context.ofRoot "main") (hlength _ _) (hlength _ _)
    obtain ⟨e, hresult, _, hcause⟩ := hshort (hrange _) (hrange _) (by decide +kernel)
      (by decide +kernel)
    exact ⟨e, hresult, hcause⟩

end Padding

end RsaCircuit
