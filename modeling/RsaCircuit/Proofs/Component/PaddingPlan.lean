import RsaCircuit.Proofs.Component.Padding
import RsaCircuit.Proofs.Component.Plans
set_option autoImplicit false

/-!
# Plan of the padding

The padding tests every byte that may belong to the run of ones, whatever the length of the modulus
is, so its steps depend on the layout alone.
-/

namespace RsaCircuit

namespace Padding

open Limbs

variable {layout : Layout}

/-- Splits at the positions from `i` up, the digest before the modulus. -/
def splitPlan (width : Nat) : Nat → Nat → Plan
  | _, 0 => []
  | i, count + 1 =>
    (BitSplit.component width).placePlan (BitSplit.plan width) s!"base_message_n2b[{i}]" ++
      ((BitSplit.component width).placePlan (BitSplit.plan width) s!"modulus_n2b[{i}]" ++
        splitPlan width (i + 1) count)

/-- How many bytes may belong to the run of ones. -/
def byteCount (layout : Layout) : Nat := piecesFor (layout.totalBits - (separatorEnd + 8)) 8

def encodePlan (layout : Layout) : Plan :=
  Plan.repeated (layout.totalBits - RsaCircuit.digestBits)
      (Plan.check "digest has no bits above 256") ++
    (ZeroTest.component.placeDownPlan ZeroTest.plan "modulus_zero" (byteCount layout) ++
      (Plan.repeated minPaddingOnes (Plan.check "padding has at least 65 one-bits") ++
        (BitJoin.component layout.limbBits).placeEachPlan [] "padded_message_b2n" layout.limbCount))

def plan (layout : Layout) : Plan := splitPlan layout.limbBits 0 layout.limbCount ++ encodePlan layout

theorem constraintCount_splitPlan (width count i : Nat) :
    (splitPlan width i count).constraintCount = 2 * count * (width + 1) := by
  induction count generalizing i with
  | zero => rw [Nat.mul_zero, Nat.zero_mul]; rfl
  | succ count ih =>
    simp only [splitPlan, Plan.constraintCount_append, Component.constraintCount_placePlan,
      BitSplit.constraintCount_plan, ih]
    ring

theorem constraintCount_plan (layout : Layout) :
    (plan layout).constraintCount = 2 * layout.limbCount * (layout.limbBits + 1) +
      (layout.totalBits - 256) + byteCount layout + 65 := by
  simp only [plan, encodePlan, Plan.constraintCount_append, constraintCount_splitPlan,
    Plan.constraintCount_repeated, Plan.constraintCount_check, ZeroTest.plan,
    Component.constraintCount_placeDownPlan, Component.constraintCount_placeEachPlan,
    Plan.constraintCount_nil, Nat.mul_one, Nat.mul_zero, Nat.add_zero, RsaCircuit.digestBits,
    minPaddingOnes, Nat.add_assoc]

def signalCount (layout : Layout) : Nat :=
  3 * layout.limbCount + 3 * layout.totalBits +
    3 * (layout.limbCount * (layout.limbBits + 1)) + 3 * byteCount layout

/-- Both splits at every position have the width of the limbs. -/
structure SplitCounts (width count : Nat) (splits : List (BitSplit.Witness × BitSplit.Witness)) :
    Prop where
  length_eq : splits.length = count
  digest : ∀ w ∈ splits.map (·.1), w.out.length = width
  modulus : ∀ w ∈ splits.map (·.2), w.out.length = width

theorem splitFrom_follows (width i : Nat) (pairs : List (Scalar × Scalar)) :
    (splitFrom (BitSplit.component width) i pairs).Follows (splitPlan width i pairs.length)
      (SplitCounts width pairs.length) := by
  induction pairs generalizing i with
  | nil => exact .done ⟨rfl, by simp, by simp⟩
  | cons pair pairs ih =>
    refine (BitSplit.follows width pair.1).place.bind fun digestSplit hdigest => ?_
    refine (BitSplit.follows width pair.2).place.bind fun modulusSplit hmodulus => ?_
    refine (ih (i + 1)).bind_done fun splits hsplits => .done ?_
    exact ⟨congrArg (· + 1) hsplits.length_eq, List.forall_mem_cons.2 ⟨hdigest, hsplits.digest⟩,
      List.forall_mem_cons.2 ⟨hmodulus, hsplits.modulus⟩⟩

/-- An encoding has one bit per bit of the layout, one test per byte of the run and one join per
limb. -/
structure Encoding.Counts (layout : Layout) (encoding : Encoding) : Prop where
  bits : encoding.bits.length = layout.totalBits
  zeroTests : encoding.zeroTests.length = byteCount layout
  joins : encoding.joins.length = layout.limbCount
  signals : ∀ w ∈ encoding.joins, w.signals.length = layout.limbBits + 1

theorem noDigest_follows (bits : List Scalar) :
    (Run.each assertNoDigest bits).Follows
      (Plan.repeated bits.length (Plan.check "digest has no bits above 256")) fun _ => True :=
  Run.Follows.each (fun _ => rfl) bits

theorem padding_follows (bits : List Scalar) :
    (Run.each assertPadding bits).Follows
      (Plan.repeated bits.length (Plan.check "padding has at least 65 one-bits")) fun _ => True :=
  Run.Follows.each (fun _ => rfl) bits

theorem zeroTests_follows (count : Nat) (bits : List Scalar) :
    (ZeroTest.component.placeDown "modulus_zero"
      (suffixSums ((groups 8 count bits).map Scalar.sum))).Follows
      (ZeroTest.component.placeDownPlan ZeroTest.plan "modulus_zero" count) fun tests =>
        tests.length = count := by
  have hsums : (suffixSums ((groups 8 count bits).map Scalar.sum)).length = count := by
    rw [length_suffixSums, List.length_map, length_groups]
  have htests := Run.Follows.placeDown "modulus_zero"
    fun s (_ : s ∈ suffixSums ((groups 8 count bits).map Scalar.sum)) => ZeroTest.follows s
  rw [hsums] at htests
  exact htests.weaken fun tests h => h.1

theorem joins_follows {width count : Nat} {bits : List Scalar}
    (hlength : ∀ group ∈ groups width count bits, group.length = width) :
    ((BitJoin.component width).placeEach "padded_message_b2n" (groups width count bits)).Follows
      ((BitJoin.component width).placeEachPlan [] "padded_message_b2n" count) fun joins =>
        joins.length = count ∧ ∀ w ∈ joins, w.signals.length = width + 1 := by
  have hjoins := Run.Follows.placeEach "padded_message_b2n"
    fun group (hgroup : group ∈ groups width count bits) => BitJoin.follows (hlength group hgroup)
  rwa [length_groups] at hjoins

theorem encode_follows (hfits : minModulusBits ≤ layout.totalBits) {modulus digest : List Scalar}
    (hmodulus : InRange 1 modulus) (hdigest : InRange 1 digest)
    (hmodulusLength : modulus.length = layout.totalBits)
    (hdigestLength : digest.length = layout.totalBits) :
    (encode layout modulus digest).Follows (encodePlan layout) (Encoding.Counts layout) := by
  have hbits : minModulusBits = 481 := rfl
  have hdigestBits : RsaCircuit.digestBits = 256 := rfl
  have hseparator : separatorEnd = 416 := rfl
  -- the digest
  have hnoDigest := noDigest_follows (digest.drop RsaCircuit.digestBits)
  rw [List.length_drop, hdigestLength] at hnoDigest
  rw [encode, Run.ofDomain_bind (slice_digest_eq hfits hdigestLength)]
  refine hnoDigest.bind fun _ _ => ?_
  -- the run of ones
  rw [Run.ofDomain_bind (bitsAboveSeparator_eq hfits hmodulusLength)]
  obtain ⟨honesRange, hones, _⟩ :=
    ones_eq hmodulus hmodulusLength (by omega) layout.totalBits_lt_fieldOrder
  have hbytes : piecesFor (modulus.drop (separatorEnd + 8)).length 8 = byteCount layout := by
    rw [List.length_drop, hmodulusLength, byteCount]
  have htests := (zeroTests_follows (piecesFor (modulus.drop (separatorEnd + 8)).length 8)
    (modulus.drop (separatorEnd + 8))).and_decides (zeroTests_decides _ _)
  rw [← hbytes]
  refine htests.bind fun zeroTests hzeroTests => ?_
  obtain ⟨hcount, _, hflags⟩ := hzeroTests
  rw [hflags]
  obtain ⟨bits, hassemble, hbitsRange, hbitsLength, _⟩ :=
    assemble_eq hdigest (by omega) honesRange hones
  have hchecks := padding_follows ((bits.take minModulusBits).drop separatorEnd)
  rw [List.length_drop, List.length_take,
    Nat.min_eq_left (show minModulusBits ≤ bits.length by omega)] at hchecks
  rw [Run.ofDomain_bind hassemble, Run.ofDomain_bind (slice_padding_eq hfits hbitsLength)]
  refine hchecks.bind fun _ _ => ?_
  -- the limbs
  obtain ⟨_, _, hgroups⟩ := joined_groups layout.limbBits_le_253 hbitsRange
    (hbitsLength : bits.length = layout.limbBits * layout.limbCount)
  refine (joins_follows hgroups).bind_done fun joins hjoins => .done ?_
  exact ⟨hbitsLength, hcount.trans hbytes, hjoins.1, hjoins.2⟩

theorem pad_follows (hfits : minModulusBits ≤ layout.totalBits) {input : Input}
    (hmodulus : input.modulus.length = layout.limbCount)
    (hdigest : input.digest.length = layout.limbCount) :
    (pad layout input).Follows (plan layout) fun w =>
      w.signals.length = signalCount layout ∧ w.paddedMessage.length = layout.limbCount := by
  obtain ⟨modulus, digest⟩ := input
  dsimp only at hmodulus hdigest
  have hpairs : (digest.zip modulus).length = layout.limbCount := by
    rw [List.length_zip, hdigest, hmodulus, Nat.min_self]
  have hsplits := (splitFrom_follows layout.limbBits 0 (digest.zip modulus)).and_decides
    (splitFrom_decides layout.limbBits 0 (digest.zip modulus))
  rw [hpairs] at hsplits
  rw [pad, Run.ofDomain_bind (zip?_of_length (hdigest.trans hmodulus.symm))]
  refine hsplits.bind fun splits hsplits => ?_
  obtain ⟨hcounts, _, hsplit⟩ := hsplits
  obtain ⟨hdigestBits, hmodulusBits⟩ := bitsOf_splits hdigest hmodulus hsplit
  refine (encode_follows hfits hmodulusBits.inRange hdigestBits.inRange hmodulusBits.length_eq
    hdigestBits.length_eq).bind_done fun encoding hencoding => .done ⟨?_, ?_⟩
  · simp only [Witness.signals, List.length_flatten, List.map_cons, List.map_nil, List.sum_cons,
      List.sum_nil, List.length_map, hencoding.joins, hmodulus, hdigest, hencoding.bits,
      hmodulusBits.length_eq, hdigestBits.length_eq, BitSplit.length_flatMap_signals hcounts.digest,
      BitSplit.length_flatMap_signals hcounts.modulus, hcounts.length_eq,
      length_flatMap_const fun w (_ : w ∈ encoding.zeroTests) => ZeroTest.length_signals w,
      hencoding.zeroTests, length_flatMap_const hencoding.signals, signalCount]
    ring
  · rw [List.length_map, hencoding.joins]

theorem follows (padding : Padding) {input : Input}
    (hmodulus : input.modulus.length = padding.layout.limbCount)
    (hdigest : input.digest.length = padding.layout.limbCount) :
    (padding.component.run input).Follows (plan padding.layout) fun w =>
      w.signals.length = signalCount padding.layout ∧
        w.paddedMessage.length = padding.layout.limbCount := by
  have hrun : padding.component.run input = pad padding.layout input := run_eq_pad hmodulus hdigest
  rw [hrun]
  exact pad_follows padding.fits hmodulus hdigest

end Padding

end RsaCircuit
