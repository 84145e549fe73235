import RsaCircuit.Proofs.Component.Comparison
import RsaCircuit.Proofs.Component.ModularPower
import RsaCircuit.Proofs.Component.PaddingBits
set_option autoImplicit false

/-!
# The padding is the encoded message

Under every layout that reaches beyond the lowest bits of the padding, the component encodes the
digest for a modulus of any length that leaves room for eight bytes `ff`.
-/

namespace RsaCircuit

namespace Layout

/-- A sum over all bits of a big integer does not wrap. -/
theorem totalBits_lt_fieldOrder (layout : Layout) : layout.totalBits < fieldOrder := by
  have hcount := Nat.le_of_lt (lt_pow2_bitLength layout.limbCount)
  have hwidth : layout.limbBits ≤ pow2 layout.limbBits := Nat.le_of_lt Nat.lt_two_pow_self
  have hbits := layout.productBits_le
  have hexponent : layout.limbBits + bitLength layout.limbCount ≤ 248 := by
    unfold productBits at hbits
    omega
  calc layout.totalBits ≤ pow2 layout.limbBits * pow2 (bitLength layout.limbCount) :=
        Nat.mul_le_mul hwidth hcount
    _ = pow2 (layout.limbBits + bitLength layout.limbCount) := (pow2_add _ _).symm
    _ ≤ pow2 248 := pow2_le_pow2 hexponent
    _ < fieldOrder := by decide

end Layout

namespace Padding

open Limbs

variable {layout : Layout}

/-! ## The encoded message -/

/-- The integer of the header. -/
def headerValue : Nat := ofBigEndian digestHeader

/-- The padded message of a digest for a modulus: from the top a byte `01` below the top byte of the
modulus, bytes `ff`, a zero byte, the header and the digest. -/
def encoded (modulus digest : Nat) : Nat :=
  let top := (bitLength modulus - 1) / 8
  pow2 (8 * top - 8) + (pow2 (8 * top - 8) - pow2 separatorEnd) +
    headerValue * pow2 RsaCircuit.digestBits + digest

theorem headerValue_lt : headerValue < pow2 (8 * digestHeader.length) := by decide

/-- Length of the shortest moduli that a message can be padded for, without their top bit. -/
def minModulusTop : Nat := 488

/-- Digest and header stand below the run of ones. -/
theorem digest_add_header_lt {digest : Nat} (h : digest < pow2 RsaCircuit.digestBits) :
    digest + pow2 RsaCircuit.digestBits * headerValue < pow2 separatorEnd := by
  have hbytes : pow2 RsaCircuit.digestBits * pow2 (8 * digestHeader.length) ≤ pow2 separatorEnd := by
    rw [← pow2_add]
    exact pow2_le_pow2 (by decide)
  have hmul : pow2 RsaCircuit.digestBits * (headerValue + 1) ≤
      pow2 RsaCircuit.digestBits * pow2 (8 * digestHeader.length) :=
    Nat.mul_le_mul_left _ headerValue_lt
  rw [Nat.mul_succ] at hmul
  omega

/-- The run of ones and what is below it add up to the encoded message. -/
theorem encoded_eq {modulus : Nat} (h : pow2 minModulusTop ≤ modulus) (digest : Nat) :
    digest + pow2 RsaCircuit.digestBits * headerValue +
      pow2 separatorEnd * onesValue (modulus / pow2 (separatorEnd + 8)) = encoded modulus digest := by
  have hlong : minModulusTop < bitLength modulus := (lt_bitLength_iff _ _).2 h
  have hlength := bitLength_div_pow2 modulus (separatorEnd + 8)
  have hseparator : separatorEnd = 416 := rfl
  unfold minModulusTop at hlong
  rw [hseparator] at hlength
  have hne : modulus / pow2 (separatorEnd + 8) ≠ 0 := by
    intro hzero
    rw [hseparator] at hzero
    rw [hzero, bitLength_zero] at hlength
    omega
  have hexponent : separatorEnd + (8 * ((bitLength (modulus / pow2 (separatorEnd + 8)) - 1) / 8) + 1) =
      8 * ((bitLength modulus - 1) / 8) - 8 + 1 := by
    rw [hseparator, hlength]
    omega
  have hle : pow2 separatorEnd ≤ pow2 (8 * ((bitLength modulus - 1) / 8) - 8) :=
    pow2_le_pow2 (by omega)
  rw [onesValue, if_neg hne, Nat.mul_sub, Nat.mul_one, ← pow2_add, hexponent, pow2_succ]
  simp only [encoded]
  rw [Nat.mul_comm headerValue]
  generalize pow2 RsaCircuit.digestBits * headerValue = header
  omega

theorem encoded_lt {modulus digest : Nat} (h : pow2 minModulusTop ≤ modulus)
    (hdigest : digest < pow2 RsaCircuit.digestBits) : encoded modulus digest < modulus := by
  have hlong : minModulusTop < bitLength modulus := (lt_bitLength_iff _ _).2 h
  have hne : modulus ≠ 0 := by
    rintro rfl
    exact absurd h (Nat.not_le_of_lt (pow2_pos minModulusTop))
  have hmodulus := pow2_pred_bitLength_le hne
  unfold minModulusTop at hlong
  have hlow := digest_add_header_lt hdigest
  rw [Nat.mul_comm] at hlow
  have hle : pow2 separatorEnd ≤ pow2 (8 * ((bitLength modulus - 1) / 8) - 8) := by
    have hseparator : separatorEnd = 416 := rfl
    exact pow2_le_pow2 (by omega)
  have htop : 2 * pow2 (8 * ((bitLength modulus - 1) / 8) - 8) ≤ pow2 (bitLength modulus - 1) := by
    rw [← pow2_succ]
    exact pow2_le_pow2 (by omega)
  simp only [encoded]
  omega

/-- Messages with one encoding have one digest. -/
theorem encoded_injective (modulus : Nat) {digest digest' : Nat}
    (h : encoded modulus digest = encoded modulus digest') : digest = digest' :=
  Nat.add_left_cancel h

/-! ## Splitting both integers -/

theorem splitFrom_decides (width i : Nat) (pairs : List (Scalar × Scalar)) :
    (splitFrom (BitSplit.component width) i pairs).Decides
      (InRange width (pairs.map Prod.fst) ∧ InRange width (pairs.map Prod.snd)) fun splits =>
        splits = pairs.map fun pair =>
          (⟨pair.1.bits width, pair.1⟩, ⟨pair.2.bits width, pair.2⟩) := by
  induction pairs generalizing i with
  | nil =>
    have hnil : InRange width [] ∧ InRange width [] := ⟨inRange_nil width, inRange_nil width⟩
    exact Run.Decides.congr (Run.Decides.done rfl) (iff_of_true trivial hnil)
  | cons pair pairs ih =>
    have hall : (splitFrom (BitSplit.component width) i (pair :: pairs)).Decides
        (pair.1.val < pow2 width ∧ pair.2.val < pow2 width ∧
          InRange width (pairs.map Prod.fst) ∧ InRange width (pairs.map Prod.snd)) fun splits =>
        splits = (pair :: pairs).map fun pair =>
          (⟨pair.1.bits width, pair.1⟩, ⟨pair.2.bits width, pair.2⟩) := by
      apply (BitSplit.decides width pair.1).place.bind
      intro _ digestSplit hdigest
      apply (BitSplit.decides width pair.2).place.bind
      intro _ modulusSplit hmodulus
      refine (ih (i + 1)).bind_done fun _ splits hsplits => Run.Decides.done ?_
      rw [hdigest, hmodulus, hsplits, List.map_cons]
    refine hall.congr ?_
    rw [List.map_cons, List.map_cons, inRange_cons, inRange_cons]
    tauto

theorem splitFrom_zip_decides (width : Nat) {digest modulus : Limbs}
    (hlengths : digest.length = modulus.length) :
    (splitFrom (BitSplit.component width) 0 (digest.zip modulus)).Decides
      (InRange width digest ∧ InRange width modulus) fun splits =>
        splits = (digest.zip modulus).map fun pair =>
          (⟨pair.1.bits width, pair.1⟩, ⟨pair.2.bits width, pair.2⟩) := by
  have hsplits := splitFrom_decides width 0 (digest.zip modulus)
  rwa [List.map_fst_zip hlengths.le, List.map_snd_zip hlengths.ge] at hsplits

/-! ## The parts of the run -/

/-- Limbs as the padding takes them: digits of the layout, a digest of at most 256 bits, and a modulus
that leaves room for the padding. -/
structure Input.Paddable (layout : Layout) (input : Input) : Prop where
  digest_inRange : InRange layout.limbBits input.digest
  modulus_inRange : InRange layout.limbBits input.modulus
  digest_lt : value layout.limbBits input.digest < pow2 RsaCircuit.digestBits
  le_modulus : pow2 minModulusTop ≤ value layout.limbBits input.modulus

/-- The bits from a position on are zero iff the integer is below the power of that position. -/
theorem forall_drop_eq_zero_iff {bits : List Scalar} (h : InRange 1 bits) (start : Nat) :
    (∀ bit ∈ bits.drop start, bit = 0) ↔ value 1 bits < pow2 start := by
  have hpos := pow2_pos start
  rw [all_zero_iff, value_drop h, Nat.one_mul, Nat.div_eq_zero_iff]
  omega

/-- The digest has no bits above its width iff it is below the power of that width. -/
theorem assertNoDigest_decides {bits : List Scalar} (h : InRange 1 bits) (start : Nat) :
    (Run.each assertNoDigest (bits.drop start)).Decides (value 1 bits < pow2 start) fun _ => True := by
  have heach : (Run.each assertNoDigest (bits.drop start)).Decides
      (∀ bit ∈ bits.drop start, bit = 0) fun _ => True :=
    Run.Decides.each fun _ _ => Run.Decides.check
  exact heach.congr (forall_drop_eq_zero_iff h start)

/-- The lowest 65 bits of the run are ones iff the modulus leaves room for the padding. -/
theorem forall_padding_eq_one_iff {bits : List Scalar} (h : InRange 1 bits)
    (hlength : minModulusBits ≤ bits.length) {modulus : Nat}
    (hrun : value 1 bits / pow2 separatorEnd = onesValue (modulus / pow2 (separatorEnd + 8))) :
    (∀ bit ∈ (bits.take minModulusBits).drop separatorEnd, bit = 1) ↔
      pow2 minModulusTop ≤ modulus := by
  have hgap : minModulusBits - separatorEnd = 65 := rfl
  have hwindow : (bits.take minModulusBits).drop separatorEnd = (bits.drop separatorEnd).take 65 := by
    rw [List.drop_take, hgap]
  have hsixtyFive : ((bits.drop separatorEnd).take 65).length = 65 := by
    rw [List.length_take, List.length_drop]
    have hbits : minModulusBits = separatorEnd + 65 := rfl
    omega
  have htop : pow2 minModulusTop = pow2 (separatorEnd + 8) * pow2 64 :=
    pow2_add (separatorEnd + 8) 64
  rw [hwindow, all_ones_iff ((h.drop _).take _), hsixtyFive, value_take (h.drop _), value_drop h,
    Nat.one_mul, Nat.one_mul, hrun, onesValue_mod_iff, htop, Nat.le_div_iff_mul_le (pow2_pos _),
    Nat.mul_comm]

/-- The check of the lowest bits of the run decides whether the modulus leaves room for the
padding. -/
theorem assertPadding_decides {bits : List Scalar} (h : InRange 1 bits)
    (hlength : minModulusBits ≤ bits.length) {modulus : Nat}
    (hrun : value 1 bits / pow2 separatorEnd = onesValue (modulus / pow2 (separatorEnd + 8))) :
    (Run.each assertPadding ((bits.take minModulusBits).drop separatorEnd)).Decides
      (pow2 minModulusTop ≤ modulus) fun _ => True := by
  have heach : (Run.each assertPadding ((bits.take minModulusBits).drop separatorEnd)).Decides
      (∀ bit ∈ (bits.take minModulusBits).drop separatorEnd, bit = 1) fun _ => True :=
    Run.Decides.each fun _ _ => Run.Decides.check
  exact heach.congr (forall_padding_eq_one_iff h hlength hrun)

/-- The bits of the padded message. -/
theorem assemble_eq {total : Nat} {digest ones : List Scalar} (hdigest : InRange 1 digest)
    (hdigestLength : RsaCircuit.digestBits ≤ digest.length) (hones : InRange 1 ones)
    (htotal : total = ones.length + (separatorEnd + 8)) :
    ∃ bits, assemble total digest ones = .ok bits ∧ InRange 1 bits ∧ bits.length = total ∧
      value 1 bits = value 1 digest % pow2 RsaCircuit.digestBits +
        pow2 RsaCircuit.digestBits * headerValue + pow2 separatorEnd * value 1 ones := by
  have hheader : headerBits = split 1 (8 * digestHeader.length) headerValue := map_testBit _ _
  have hheaderRange : InRange 1 headerBits := by
    rw [hheader]
    exact inRange_split (by decide) _ _
  have hheaderLength : headerBits.length = 8 * digestHeader.length := by
    rw [hheader, length_split]
  have hheaderValue : value 1 headerBits = headerValue := by
    rw [hheader, value_split (by decide), Nat.one_mul, Nat.mod_eq_of_lt headerValue_lt]
  have htakeLength : (digest.take RsaCircuit.digestBits).length = RsaCircuit.digestBits := by
    rw [List.length_take, Nat.min_eq_left hdigestLength]
  have htakeValue : value 1 (digest.take RsaCircuit.digestBits) =
      value 1 digest % pow2 RsaCircuit.digestBits := by
    rw [value_take hdigest, Nat.one_mul]
  have hzeros : InRange 1 (List.replicate 8 (0 : Scalar)) := inRange_replicate_zero 8
  have hseparator : RsaCircuit.digestBits + (8 * digestHeader.length + 8) = separatorEnd := rfl
  have hend : headerEnd + 8 = separatorEnd := rfl
  have hflatten : List.flatten [digest.take RsaCircuit.digestBits, headerBits, List.replicate 8 0,
      ones, List.replicate 8 0] = digest.take RsaCircuit.digestBits ++ (headerBits ++
        (List.replicate 8 0 ++ (ones ++ List.replicate 8 0))) := by
    simp only [List.flatten_cons, List.flatten_nil, List.append_nil]
  have hlength : (digest.take RsaCircuit.digestBits ++ (headerBits ++
      (List.replicate 8 0 ++ (ones ++ List.replicate 8 (0 : Scalar))))).length = total := by
    simp only [List.length_append, htakeLength, hheaderLength, List.length_replicate]
    omega
  refine ⟨_, ?_, ?_, hlength, ?_⟩
  · rw [assemble, bind_of_ok (slice?_take hdigestLength), if_pos (by omega), hflatten,
      List.take_of_length_le hlength.le]
  · simp only [inRange_append]
    exact ⟨hdigest.take _, hheaderRange, hzeros, hones, hzeros⟩
  · rw [value_append, value_append, value_append, value_append, htakeLength, htakeValue,
      hheaderLength, hheaderValue, value_replicate_zero, Nat.mul_zero, Nat.zero_add, Nat.add_zero,
      List.length_replicate, Nat.one_mul, Nat.one_mul, Nat.one_mul, ← hseparator, pow2_add, pow2_add]
    ring

/-! ## The component -/

/-- The tests of the suffix sums answer with the flags of the bytes. -/
theorem zeroTests_decides (count : Nat) (bits : List Scalar) :
    (ZeroTest.component.placeDown "modulus_zero"
      (suffixSums ((groups 8 count bits).map Scalar.sum))).Decides True fun tests =>
        (tests.map fun test => 1 - test.out) = flags count bits := by
  apply Run.Decides.placeDown_map
  intro s _
  apply (ZeroTest.decides s).weaken
  intro _ test htest
  rw [htest]
  exact Scalar.one_sub_ofBool (decide (s = 0))

theorem joins_decides {width count : Nat} {bits : List Scalar}
    (hlength : ∀ group ∈ groups width count bits, group.length = width) :
    ((BitJoin.component width).placeEach "padded_message_b2n" (groups width count bits)).Decides True
      fun joins => joins.map (·.out) =
        (groups width count bits).map fun group => (value 1 group : Scalar) := by
  apply Run.Decides.placeEach_map
  intro group hgroup
  apply (BitJoin.decides (hlength group hgroup)).weaken
  intro _ join hjoin
  rw [hjoin]

/-- The run of ones has one bit per bit of the layout above its lowest byte. -/
theorem ones_eq {total : Nat} {modulus : List Scalar} (hmodulus : InRange 1 modulus)
    (hlength : modulus.length = total) (hfits : separatorEnd + 8 ≤ total)
    (hfield : total < fieldOrder) :
    let above := modulus.drop (separatorEnd + 8)
    let count := piecesFor above.length 8
    let ones := spread ((flags count above).zip ((groups 8 count above).map (·.length)))
    InRange 1 ones ∧ total = ones.length + (separatorEnd + 8) ∧
      value 1 ones = onesValue (value 1 modulus / pow2 (separatorEnd + 8)) := by
  intro above count ones
  have haboveLength : above.length = total - (separatorEnd + 8) := by
    rw [List.length_drop, hlength]
  have hlt : above.length < fieldOrder := by omega
  have hcover : above.length ≤ 8 * count := by
    rw [Nat.mul_comm]
    exact le_piecesFor_mul above.length 8 (Nat.succ_pos 7)
  have htight : 8 * count < above.length + 8 := by
    have hdiv := Nat.mul_div_le (above.length + 8 - 1) 8
    change 8 * ((above.length + 8 - 1) / 8) < _
    omega
  obtain ⟨hrange, hones, hvalue⟩ := spread_flags count (hmodulus.drop (separatorEnd + 8))
    hlt hcover htight
  rw [value_drop hmodulus, Nat.one_mul] at hvalue
  refine ⟨hrange, ?_, hvalue⟩
  rw [hones, haboveLength]
  omega

/-- The bits of the message for a digest that is not too wide, and the run of ones in them. -/
theorem assemble_ones_eq (hfits : minModulusBits ≤ layout.totalBits) {modulus digest : List Scalar}
    (hmodulus : InRange 1 modulus) (hdigest : InRange 1 digest)
    (hmodulusLength : modulus.length = layout.totalBits)
    (hdigestLength : digest.length = layout.totalBits)
    (hdigestlt : value 1 digest < pow2 RsaCircuit.digestBits) :
    let above := modulus.drop (separatorEnd + 8)
    let count := piecesFor above.length 8
    ∃ bits, assemble layout.totalBits digest
        (spread ((flags count above).zip ((groups 8 count above).map (·.length)))) = .ok bits ∧
      InRange 1 bits ∧ bits.length = layout.totalBits ∧
      value 1 bits = value 1 digest + pow2 RsaCircuit.digestBits * headerValue +
        pow2 separatorEnd * onesValue (value 1 modulus / pow2 (separatorEnd + 8)) ∧
      value 1 bits / pow2 separatorEnd =
        onesValue (value 1 modulus / pow2 (separatorEnd + 8)) := by
  intro above count
  have hbits : minModulusBits = 481 := rfl
  have hdigestBits : RsaCircuit.digestBits = 256 := rfl
  have hseparator : separatorEnd = 416 := rfl
  obtain ⟨honesRange, hones, honesValue⟩ :=
    ones_eq hmodulus hmodulusLength (by omega) layout.totalBits_lt_fieldOrder
  obtain ⟨bits, hassemble, hrange, hlength, hvalue⟩ :=
    assemble_eq hdigest (by omega) honesRange hones
  rw [honesValue, Nat.mod_eq_of_lt hdigestlt] at hvalue
  refine ⟨bits, hassemble, hrange, hlength, hvalue, ?_⟩
  rw [hvalue, Nat.add_mul_div_left _ _ (pow2_pos _),
    Nat.div_eq_of_lt (digest_add_header_lt hdigestlt), Nat.zero_add]

/-- The bits of the digest above its width lie within a layout that can hold a padded message. -/
theorem slice_digest_eq (hfits : minModulusBits ≤ layout.totalBits) {digest : List Scalar}
    (hlength : digest.length = layout.totalBits) :
    slice? RsaCircuit.digestBits layout.totalBits digest =
      .ok (digest.drop RsaCircuit.digestBits) := by
  rw [← hlength] at hfits ⊢
  exact slice?_drop (le_trans (by decide) hfits)

/-- So do the bits of the modulus that decide about the run of ones. -/
theorem bitsAboveSeparator_eq (hfits : minModulusBits ≤ layout.totalBits) {modulus : List Scalar}
    (hlength : modulus.length = layout.totalBits) :
    bitsAboveSeparator layout.totalBits modulus = .ok (modulus.drop (separatorEnd + 8)) := by
  have hle : separatorEnd + 8 ≤ layout.totalBits := le_trans (by decide) hfits
  rw [bitsAboveSeparator, Nat.min_eq_left hle]
  rw [← hlength] at hle ⊢
  exact slice?_drop hle

/-- And so do the lowest bits of the run of ones. -/
theorem slice_padding_eq (hfits : minModulusBits ≤ layout.totalBits) {bits : List Scalar}
    (hlength : bits.length = layout.totalBits) :
    slice? separatorEnd minModulusBits bits =
      .ok ((bits.take minModulusBits).drop separatorEnd) :=
  slice?_of_le (by decide) (hfits.trans hlength.ge)

/-- Encoding from the bits of both integers. -/
theorem encode_decides (hfits : minModulusBits ≤ layout.totalBits) {modulus digest : List Scalar}
    (hmodulus : InRange 1 modulus) (hdigest : InRange 1 digest)
    (hmodulusLength : modulus.length = layout.totalBits)
    (hdigestLength : digest.length = layout.totalBits) :
    (encode layout modulus digest).Decides
      (value 1 digest < pow2 RsaCircuit.digestBits ∧ pow2 minModulusTop ≤ value 1 modulus)
      fun encoding => Holds layout (encoded (value 1 modulus) (value 1 digest))
        (encoding.joins.map (·.out)) := by
  -- the digest
  rw [encode, Run.ofDomain_bind (slice_digest_eq hfits hdigestLength)]
  apply (assertNoDigest_decides hdigest _).bind
  intro hdigestlt _ _
  -- the run of ones
  rw [Run.ofDomain_bind (bitsAboveSeparator_eq hfits hmodulusLength)]
  apply (zeroTests_decides _ _).bind_total
  intro zeroTests htests
  rw [htests]
  obtain ⟨bits, hassemble, hbitsRange, hbitsLength, hbitsValue, hrun⟩ :=
    assemble_ones_eq hfits hmodulus hdigest hmodulusLength hdigestLength hdigestlt
  rw [Run.ofDomain_bind hassemble, Run.ofDomain_bind (slice_padding_eq hfits hbitsLength)]
  apply (assertPadding_decides hbitsRange (hfits.trans hbitsLength.ge) hrun).bind_done
  intro hle _ _
  -- the limbs
  obtain ⟨hjoinsRange, hjoinsValue, hgroups⟩ := joined_groups layout.limbBits_le_253 hbitsRange
    (hbitsLength : bits.length = layout.limbBits * layout.limbCount)
  refine (joins_decides hgroups).bind_total fun joins hjoins => Run.Decides.done ?_
  rw [hjoins]
  refine ⟨hjoinsRange, ?_, ?_⟩
  · rw [List.length_map, length_groups]
  · rw [hjoinsValue, hbitsValue, encoded_eq hle]

theorem splits_out {width : Nat} {digest modulus : Limbs}
    {splits : List (BitSplit.Witness × BitSplit.Witness)} (hlengths : digest.length = modulus.length)
    (h : splits = (digest.zip modulus).map fun pair =>
      (⟨pair.1.bits width, pair.1⟩, ⟨pair.2.bits width, pair.2⟩)) :
    (splits.map (·.1)).flatMap (·.out) = digest.flatMap (Scalar.bits width) ∧
      (splits.map (·.2)).flatMap (·.out) = modulus.flatMap (Scalar.bits width) := by
  have hfst := List.map_fst_zip hlengths.le
  have hsnd := List.map_snd_zip hlengths.ge
  rw [h, List.map_map, List.map_map]
  constructor
  · conv_rhs => rw [← hfst]
    rw [List.flatMap_map, List.flatMap_map]
    rfl
  · conv_rhs => rw [← hsnd]
    rw [List.flatMap_map, List.flatMap_map]
    rfl

/-- The bits of a big integer. -/
structure BitsOf (layout : Layout) (xs : Limbs) (bits : List Scalar) : Prop where
  inRange : InRange 1 bits
  length_eq : bits.length = layout.totalBits
  value_eq : InRange layout.limbBits xs → value 1 bits = value layout.limbBits xs

theorem bitsOf_flatMap {xs : Limbs} (h : xs.length = layout.limbCount) :
    BitsOf layout xs (xs.flatMap (Scalar.bits layout.limbBits)) where
  inRange := inRange_flatMap_bits layout.limbBits xs
  length_eq := by
    rw [length_flatMap_bits, h]
    rfl
  value_eq := value_flatMap_bits

theorem bitsOf_splits {digest modulus : Limbs} {splits : List (BitSplit.Witness × BitSplit.Witness)}
    (hdigest : digest.length = layout.limbCount) (hmodulus : modulus.length = layout.limbCount)
    (h : splits = (digest.zip modulus).map fun pair =>
      (⟨pair.1.bits layout.limbBits, pair.1⟩, ⟨pair.2.bits layout.limbBits, pair.2⟩)) :
    BitsOf layout digest ((splits.map (·.1)).flatMap (·.out)) ∧
      BitsOf layout modulus ((splits.map (·.2)).flatMap (·.out)) := by
  obtain ⟨hdigestBits, hmodulusBits⟩ := splits_out (hdigest.trans hmodulus.symm) h
  rw [hdigestBits, hmodulusBits]
  exact ⟨bitsOf_flatMap hdigest, bitsOf_flatMap hmodulus⟩

theorem pad_decides (hfits : minModulusBits ≤ layout.totalBits) {input : Input}
    (hmodulus : input.modulus.length = layout.limbCount)
    (hdigest : input.digest.length = layout.limbCount) :
    (pad layout input).Decides (input.Paddable layout) fun w =>
      Holds layout (encoded (value layout.limbBits input.modulus) (value layout.limbBits input.digest))
        w.paddedMessage := by
  obtain ⟨modulus, digest⟩ := input
  dsimp only at hmodulus hdigest
  have hlengths : digest.length = modulus.length := hdigest.trans hmodulus.symm
  have hall : (pad layout ⟨modulus, digest⟩).Decides
      ((InRange layout.limbBits digest ∧ InRange layout.limbBits modulus) ∧
        value layout.limbBits digest < pow2 RsaCircuit.digestBits ∧
          pow2 minModulusTop ≤ value layout.limbBits modulus) fun w =>
      Holds layout (encoded (value layout.limbBits modulus) (value layout.limbBits digest))
        w.paddedMessage := by
    rw [pad, Run.ofDomain_bind (zip?_of_length hlengths)]
    apply (splitFrom_zip_decides layout.limbBits hlengths).bind
    intro hrange splits hsplit
    obtain ⟨hdigestBits, hmodulusBits⟩ := bitsOf_splits hdigest hmodulus hsplit
    rw [← hdigestBits.value_eq hrange.1, ← hmodulusBits.value_eq hrange.2]
    exact (encode_decides hfits hmodulusBits.inRange hdigestBits.inRange hmodulusBits.length_eq
      hdigestBits.length_eq).bind_done fun _ _ hjoins => Run.Decides.done hjoins
  exact hall.congr ⟨fun ⟨⟨hd, hm⟩, hlt, hle⟩ => ⟨hd, hm, hlt, hle⟩,
    fun ⟨hd, hm, hlt, hle⟩ => ⟨⟨hd, hm⟩, hlt, hle⟩⟩

theorem run_eq_pad {input : Input} (hmodulus : input.modulus.length = layout.limbCount)
    (hdigest : input.digest.length = layout.limbCount) : run layout input = pad layout input :=
  (if_neg (not_not.2 hmodulus)).trans (if_neg (not_not.2 hdigest))

theorem run_decides (hfits : minModulusBits ≤ layout.totalBits) {input : Input}
    (hmodulus : input.modulus.length = layout.limbCount)
    (hdigest : input.digest.length = layout.limbCount) :
    (run layout input).Decides (input.Paddable layout) fun w =>
      Holds layout (encoded (value layout.limbBits input.modulus) (value layout.limbBits input.digest))
        w.paddedMessage := by
  rw [run_eq_pad hmodulus hdigest]
  exact pad_decides hfits hmodulus hdigest

/-! ## Small layouts -/

/-- The lowest bits of the run of ones have to lie within the padded message. -/
theorem minModulusBits_le_of_encode {modulus digest : List Scalar} {encoding : Encoding}
    (h : (encode layout modulus digest).outcome = .ok encoding) :
    minModulusBits ≤ layout.totalBits := by
  obtain ⟨digestAbove, _, h⟩ := Run.outcome_bind_eq_ok.1 h
  obtain ⟨_, _, h⟩ := Run.outcome_bind_eq_ok.1 h
  obtain ⟨modulusAbove, _, h⟩ := Run.outcome_bind_eq_ok.1 h
  obtain ⟨zeroTests, _, h⟩ := Run.outcome_bind_eq_ok.1 h
  obtain ⟨bits, hbits, h⟩ := Run.outcome_bind_eq_ok.1 h
  obtain ⟨padding, hpadding, _⟩ := Run.outcome_bind_eq_ok.1 h
  rw [Run.outcome_ofDomain_eq_ok] at hbits hpadding
  have hle : bits.length ≤ layout.totalBits := by
    obtain ⟨_, _, hbits⟩ := bind_eq_ok.1 hbits
    split at hbits
    · rw [← Except.ok.inj hbits, List.length_take]
      exact Nat.min_le_left _ _
    · cases hbits
  unfold slice? at hpadding
  split at hpadding
  · next hwithin => exact hwithin.2.trans hle
  · cases hpadding

theorem minModulusBits_le_of_run {input : Input} {w : Witness}
    (h : (run layout input).outcome = .ok w) : minModulusBits ≤ layout.totalBits := by
  unfold run at h
  dsimp only at h
  split at h
  · cases h
  split at h
  · cases h
  obtain ⟨pairs, _, h⟩ := Run.outcome_bind_eq_ok.1 h
  obtain ⟨splits, _, h⟩ := Run.outcome_bind_eq_ok.1 h
  obtain ⟨encoding, hencoding, _⟩ := Run.outcome_bind_eq_ok.1 h
  exact minModulusBits_le_of_encode hencoding

end Padding

end RsaCircuit
