import RsaCircuit.Layout
import RsaCircuit.Component.Bits
import RsaCircuit.Component.ZeroTest
import RsaCircuit.Lists
set_option autoImplicit false

/-!
# Padding: the encoded message of a signature

The padded message of PKCS#1 v1.5 is, from the most significant byte down,

  `00 01 ff … ff 00 header digest`

and as long as the modulus in bytes.  Its lowest 416 bits are the same for all moduli: the digest,
the header that names the digest algorithm, and a zero byte.  Above them the circuit decides byte by
byte.  The lowest bit of the byte at some position is set iff the modulus has a bit at least one byte
above that position, and the seven bits above it are set iff the next byte's lowest bit is.  So the
run of ones ends with the byte `01` one byte below the top byte of the modulus, and the topmost byte
is zero.

At least eight bytes `ff` and the lowest bit of the `01` byte have to be set: 65 bits.
-/

namespace RsaCircuit

/-! ## The parts of the padded message -/

/-- Width of a SHA-256 digest. -/
def digestBits : Nat := 256

/-- The DER encoding that precedes a SHA-256 digest. -/
def digestHeader : List UInt8 :=
  [0x30, 0x31, 0x30, 0x0d, 0x06, 0x09, 0x60, 0x86, 0x48, 0x01, 0x65, 0x03, 0x04, 0x02, 0x01, 0x05,
    0x00, 0x04, 0x20]

/-- Where the header ends and the zero byte starts. -/
def headerEnd : Nat := digestBits + 8 * digestHeader.length

/-- Where the zero byte ends and the run of ones starts. -/
def separatorEnd : Nat := headerEnd + 8

/-- How many ones there are at least. -/
def minPaddingOnes : Nat := 65

/-- Width of the smallest big integer that holds the padded message. -/
def minModulusBits : Nat := separatorEnd + minPaddingOnes

/-- A layout that can hold a padded message. -/
structure Padding where
  layout : Layout
  fits : minModulusBits ≤ layout.totalBits
  deriving Repr

namespace Padding

def ofLayout? (layout : Layout) : Except LayoutError Padding :=
  if fits : minModulusBits ≤ layout.totalBits then .ok { layout, fits }
  else .error (.tooSmallForPadding layout.totalBits minModulusBits)

/-- The bits of the header, least significant first. -/
def headerBits : List Scalar :=
  (List.range (8 * digestHeader.length)).map fun i =>
    Scalar.ofBool ((ofBigEndian digestHeader).testBit i)

/-! ## Bits in groups -/

/-- Cuts a list into `count` groups of `size`. -/
def groups {α : Type} (size : Nat) : Nat → List α → List (List α)
  | 0, _ => []
  | count + 1, xs => xs.take size :: groups size count (xs.drop size)

/-- For each position the sum of the scalars from there on. -/
def suffixSums : List Scalar → List Scalar
  | [] => []
  | x :: xs => (x + (suffixSums xs).headD 0) :: suffixSums xs

/-- The bytes of a run, each of the given width with its lowest bit first: the other bits of a byte
are copies of the lowest bit of the next one. -/
def spread : List (Scalar × Nat) → List Scalar
  | [] => []
  | (lowest, width) :: rest =>
    lowest :: (List.replicate (width - 1) ((rest.map (·.1)).headD 0) ++ spread rest)

/-! ## The component -/

/-- The modulus and the digest. -/
structure Input where
  modulus : Limbs
  digest : Limbs
  deriving DecidableEq, Repr, Inhabited

/-- The signals of a padding. -/
structure Witness where
  paddedMessage : Limbs
  modulus : Limbs
  digest : Limbs
  paddedBits : List Scalar
  modulusBits : List Scalar
  digestBits : List Scalar
  digestSplits : List BitSplit.Witness
  modulusSplits : List BitSplit.Witness
  /-- One test per byte that may belong to the run of ones, the lowest byte first. -/
  zeroTests : List ZeroTest.Witness
  joins : List BitJoin.Witness
  deriving DecidableEq, Repr, Inhabited

def Witness.signals (w : Witness) : List Scalar :=
  List.flatten [w.paddedMessage, w.modulus, w.digest, w.paddedBits, w.modulusBits, w.digestBits,
    w.digestSplits.flatMap BitSplit.Witness.signals,
    w.modulusSplits.flatMap BitSplit.Witness.signals,
    w.zeroTests.flatMap ZeroTest.Witness.signals,
    w.joins.flatMap BitJoin.Witness.signals]

/-- Splits both integers limb by limb, at each position from `i` up the digest before the modulus. -/
def splitFrom (split : Component Scalar BitSplit.Witness) :
    Nat → List (Scalar × Scalar) → Run (List (BitSplit.Witness × BitSplit.Witness))
  | _, [] => return []
  | i, (digest, modulus) :: rest => do
    let digestSplit ← split.place s!"base_message_n2b[{i}]" digest
    let modulusSplit ← split.place s!"modulus_n2b[{i}]" modulus
    let splits ← splitFrom split (i + 1) rest
    return (digestSplit, modulusSplit) :: splits

/-- Checks that a bit above the digest is zero. -/
def assertNoDigest (bit : Scalar) : Run Unit := Run.assertZero bit "digest has no bits above 256"

/-- Checks that a bit of the padding is one. -/
def assertPadding (bit : Scalar) : Run Unit :=
  Run.assertEqual bit 1 "padding has at least 65 one-bits"

/-- The bits of the padded message, in a big integer of `total` bits.  The digest and the header have
to lie within it. -/
def assemble (total : Nat) (digest ones : List Scalar) : Except Misuse (List Scalar) := do
  let digest ← slice? 0 RsaCircuit.digestBits digest
  if headerEnd ≤ total then
    .ok ((List.flatten [digest, headerBits, List.replicate 8 0, ones, List.replicate 8 0]).take total)
  else .error (.outOfBounds headerEnd total)

/-- The bits of the modulus that lie a byte or more above the separator, if there are any. -/
def bitsAboveSeparator (total : Nat) (modulusBits : List Scalar) : Except Misuse (List Scalar) :=
  slice? (min (separatorEnd + 8) total) total modulusBits

/-- The bits of a padded message, with the instances that decide about the run of ones and join the
bits to limbs. -/
structure Encoding where
  bits : List Scalar
  zeroTests : List ZeroTest.Witness
  joins : List BitJoin.Witness
  deriving DecidableEq, Repr, Inhabited

/-- Encodes the message for the bits of the modulus and of the digest. -/
def encode (layout : Layout) (modulusBits digestBits : List Scalar) : Run Encoding := do
  let digestAbove ← Run.ofDomain (slice? RsaCircuit.digestBits layout.totalBits digestBits)
  Run.each assertNoDigest digestAbove
  let modulusAbove ← Run.ofDomain (bitsAboveSeparator layout.totalBits modulusBits)
  let bytes := groups 8 (piecesFor modulusAbove.length 8) modulusAbove
  let zeroTests ← ZeroTest.component.placeDown "modulus_zero"
    (suffixSums (bytes.map Scalar.sum))
  let ones := spread ((zeroTests.map fun test => 1 - test.out).zip (bytes.map (·.length)))
  let bits ← Run.ofDomain (assemble layout.totalBits digestBits ones)
  let padding ← Run.ofDomain (slice? separatorEnd minModulusBits bits)
  Run.each assertPadding padding
  let joins ← (BitJoin.component layout.limbBits).placeEach "padded_message_b2n"
    (groups layout.limbBits layout.limbCount bits)
  return { bits, zeroTests, joins }

/-- The padding for inputs of the right lengths. -/
def pad (layout : Layout) (input : Input) : Run Witness := do
  let ⟨modulus, digest⟩ := input
  let limbs ← Run.ofDomain (zip? digest modulus)
  let splits ← splitFrom (BitSplit.component layout.limbBits) 0 limbs
  let digestSplits := splits.map (·.1)
  let modulusSplits := splits.map (·.2)
  let digestBits := digestSplits.flatMap (·.out)
  let modulusBits := modulusSplits.flatMap (·.out)
  let encoding ← encode layout modulusBits digestBits
  return {
    paddedMessage := encoding.joins.map (·.out), modulus, digest, paddedBits := encoding.bits,
    modulusBits, digestBits, digestSplits, modulusSplits, zeroTests := encoding.zeroTests,
    joins := encoding.joins }

/-- What the component does under any layout.  A layout too small for the lowest bits of the padding
has no answer. -/
def run (layout : Layout) (input : Input) : Run Witness :=
  let count := layout.limbCount
  if input.modulus.length ≠ count then .misuse (.wrongLength count input.modulus.length)
  else if input.digest.length ≠ count then .misuse (.wrongLength count input.digest.length)
  else pad layout input

def component (padding : Padding) : Component Input Witness where
  name := s!"RSAPad{padding.layout.sizes}"
  run := run padding.layout

end Padding

end RsaCircuit
